import AllParses.Proofs.Notation.Exact
import AllParses.Proofs.Notation.Judgement

/-!
# Where reading stops

A text that is no grammar as a whole is still a grammar up to some place. The reported offset is the
last such place (`incomplete_behind_longest`).

The readings of a text are compared with the texts of its beginnings. What a reading consumes is a
grammar text by itself, since the reading ends behind a rule and the layout that follows it. A
beginning that is a grammar text, on the other hand, has its rules read in the whole text too: the dot
of its last rule stands before anything that the text goes on with. So there is a reading that consumes
as much, and more only if the text goes on with layout.
-/
namespace AllParses

open Grammar (Rule)

namespace NameClasses

variable {k : NameClasses}

/-- The whole text is read as a grammar. -/
def Readable (k : NameClasses) (text : String) : Prop :=
  ∃ g, Parser.Answers (fun budget => k.lexicon.reader.fullParse budget (Input.ofString text)) (.ok g)

theorem readable_iff (separate : k.Separate) {text : String} :
    k.Readable text ↔ ∃ rules, k.GrammarText rules text.toList := by
  constructor
  · rintro ⟨g, read⟩
    by_contra none
    cases read.unique (fullParse_refuses separate (not_exists.mp none))
  · rintro ⟨rules, grammar⟩
    exact ⟨_, grammar.fullParse separate⟩

/-- What the reader consumes for some rules is a text of these rules. -/
theorem grammarText_of_mem_beginnings (separate : k.Separate) {x rest : Input Char}
    {steps : List (Rule × Input Char)} (iterates : k.lexicon.ruleReader.Iterates x steps rest)
    {run : List Rule × Input Char} (member : run ∈ Parser.beginnings x steps) :
    ∃ text, k.GrammarText run.1 text ∧ x.symbols = text ++ run.2.skipLayout.symbols := by
  induction iterates generalizing run with
  | stop refused =>
    rw [Parser.beginnings, List.mem_singleton] at member
    obtain ⟨gap, layout, split⟩ := exists_gap run.2
    rw [member] at split ⊢
    exact ⟨gap, .nil layout, split⟩
  | @step x mid rest rule steps read proper later ih =>
    rcases List.mem_append.mp member with longer | empty
    · obtain ⟨run, among, rfl⟩ := List.mem_map.mp longer
      obtain ⟨more, grammar, behind⟩ := ih among
      have reads := (Lexicon.ruleReader_settles_iff separate.sharp).mp read
      obtain ⟨text, spelt, front⟩ := ruleText_of_ruleAt separate reads
      exact ⟨text ++ more, .cons spelt grammar, by rw [front, behind, List.append_assoc]⟩
    · obtain ⟨gap, layout, split⟩ := exists_gap x
      rw [List.mem_singleton.mp empty]
      exact ⟨gap, .nil layout, split⟩

theorem skipLayout_suffix_of_gap {gap more : List Char} (layout : IsGap gap) :
    (Input.ofList (gap ++ more)).skipLayout.symbols <:+ more := by
  have skipped : (gap ++ more).dropWhile Unicode.isWhiteSpace =
      more.dropWhile Unicode.isWhiteSpace := List.dropWhile_append_of_pos layout
  rw [Input.symbols_skipLayout, Input.symbols_ofList]
  exact skipped ▸ List.dropWhile_suffix _

/-- The rules of a grammar text are read whatever follows the text, and then no more is left. -/
theorem GrammarText.exists_mem_beginnings (separate : k.Separate) {rules : List Rule}
    {text more : List Char} (grammar : k.GrammarText rules text) {steps : List (Rule × Input Char)}
    {rest : Input Char}
    (iterates : k.lexicon.ruleReader.Iterates (.ofList (text ++ more)) steps rest) :
    ∃ run ∈ Parser.beginnings (.ofList (text ++ more)) steps,
      run.2.skipLayout.symbols <:+ more := by
  induction grammar generalizing steps with
  | @nil gap layout =>
    refine ⟨([], .ofList (gap ++ more)), ?_, skipLayout_suffix_of_gap layout⟩
    cases steps with
    | nil => exact List.mem_singleton.mpr rfl
    | cons step steps => exact List.mem_append_right _ (List.mem_singleton.mpr rfl)
  | @cons rule rules text behind first later ih =>
    rw [List.append_assoc] at iterates ⊢
    have read := (first.ruleAt separate (behind ++ more)).settles separate.sharp
    cases iterates with
    | stop refused => simpa using refused.unique read
    | step read' proper iterates =>
      obtain ⟨rfl, rfl⟩ := by simpa using read.unique read'
      obtain ⟨run, among, left⟩ := ih iterates
      exact ⟨(rule :: run.1, run.2),
        List.mem_append_left _ (List.mem_map_of_mem (f := fun run => (rule :: run.1, run.2)) among),
        left⟩

/-- A reading of a text divides it into a text that is read as a whole, and what is left. -/
theorem exists_readable_front (separate : k.Separate) {text : String}
    {steps : List (Rule × Input Char)} {rest : Input Char}
    (iterates : k.lexicon.ruleReader.Iterates (Input.ofString text) steps rest)
    {r : Grammar × Input Char} (member : r ∈ Lexicon.readings (Input.ofString text) steps) :
    ∃ front : String, k.Readable front ∧ text = front ++ String.ofList r.2.symbols := by
  obtain ⟨run, among, rfl⟩ := List.mem_map.mp member
  obtain ⟨front, grammar, split⟩ := grammarText_of_mem_beginnings separate iterates among
  refine ⟨String.ofList front, (readable_iff separate).mpr ⟨run.1, ?_⟩, ?_⟩
  · rwa [String.toList_ofList]
  · rw [← String.ofList_append, ← split, Input.ofString, Input.symbols_ofList, String.ofList_toList]

/-- A beginning of the text that is read as a whole is not longer than what some reading of the text
consumes. -/
theorem exists_reading_of_readable (separate : k.Separate) {text longer more : String}
    {steps : List (Rule × Input Char)} {rest : Input Char}
    (iterates : k.lexicon.ruleReader.Iterates (Input.ofString text) steps rest)
    (split : text = longer ++ more) (readable : k.Readable longer) :
    ∃ r ∈ Lexicon.readings (Input.ofString text) steps, r.2.utf8Size ≤ more.utf8ByteSize := by
  obtain ⟨rules, grammar⟩ := (readable_iff separate).mp readable
  rw [Input.ofString, split, String.toList_append] at iterates ⊢
  obtain ⟨run, among, front, left⟩ := grammar.exists_mem_beginnings separate iterates
  refine ⟨_, List.mem_map_of_mem among, ?_⟩
  have bytes := Input.utf8Size_of_append (y := Input.ofString more) left.symm
  rw [Input.utf8Size_ofString] at bytes
  exact bytes ▸ Nat.le_add_left _ _

/-- A text that is not read as a whole is reported as incomplete at the end of its longest beginning
that is read as a whole. The offset counts the bytes of this beginning. -/
theorem incomplete_behind_longest (separate : k.Separate) {text : String}
    (unreadable : ¬ k.Readable text) :
    ∃ front rest : String, text = front ++ rest ∧ k.Readable front ∧
      (∀ longer more : String, text = longer ++ more → k.Readable longer →
        longer.utf8ByteSize ≤ front.utf8ByteSize) ∧
      Parser.Answers (fun budget => k.lexicon.readGrammar budget text)
        (.error (.malformedGrammar .incomplete text front.utf8ByteSize)) := by
  have safe : k.lexicon.SuffixSafe := ⟨Recognizer.run_suffixSafe _, Recognizer.run_suffixSafe _⟩
  have finite : k.lexicon.Finitary := ⟨Recognizer.run_finitary _, Recognizer.run_finitary _⟩
  obtain ⟨steps, rest, iterates⟩ :=
    Parser.exists_iterates separate.sharp.ruleReader (Input.ofString text)
  obtain ⟨readings, settles, -, are⟩ := Lexicon.Finitary.exists_readings safe finite text
  obtain rfl := settles.unique (Lexicon.reader_settles iterates)
  have none : Lexicon.completeReadings (Lexicon.readings (Input.ofString text) steps) = [] := by
    rw [Lexicon.completeReadings, List.map_eq_nil_iff, List.filter_eq_nil_iff]
    intro r member complete
    obtain ⟨front, readable, split⟩ := exists_readable_front separate iterates member
    rw [List.isEmpty_iff.mp complete, String.ofList_nil, String.append_empty] at split
    exact unreadable (split ▸ readable)
  -- The offset is what the longest reading consumes.
  obtain ⟨offset, error, stops⟩ := are.incomplete_stopsAt none
  obtain ⟨r, member, consumes⟩ := stops.longest.1
  obtain ⟨front, readable, split⟩ := exists_readable_front separate iterates member
  have size : offset = front.utf8ByteSize := by
    have whole := consumes.add_unread
    rw [Input.utf8Size_eq, split, String.utf8ByteSize_append] at whole
    omega
  refine ⟨front, _, split, readable, fun longer more split' readable' => ?_, ?_⟩
  · obtain ⟨s, belongs, left⟩ := exists_reading_of_readable separate iterates split' readable'
    obtain ⟨n, consumes'⟩ := Lexicon.exists_consumes (are.suffix s belongs)
    have at_most : n ≤ offset := stops.longest.2 ⟨s, belongs, consumes'⟩
    have whole := consumes'.add_unread
    rw [split', String.utf8ByteSize_append] at whole
    omega
  · apply Parser.Answers.of_eventually fun _ _ _ => k.lexicon_steady.readGrammar_kept
    filter_upwards [settles] with budget all
    rw [Lexicon.readGrammar_eq_verdict all, Lexicon.verdict_of_none none, error, size]

/-- The layout in this text takes three bytes. It is read together with the rule before it, which takes
five. -/
theorem letters_incomplete_behind_longest :
    letters.Separate ∧ ¬ letters.Readable "S::=.\u3000x" ∧
      ∃ front rest : String, "S::=.\u3000x" = front ++ rest ∧ letters.Readable front ∧
        front.utf8ByteSize = 8 ∧
        ∀ longer more : String, "S::=.\u3000x" = longer ++ more → letters.Readable longer →
          longer.utf8ByteSize ≤ front.utf8ByteSize := by
  have unreadable : ¬ letters.Readable "S::=.\u3000x" := by
    rintro ⟨g, read⟩
    have given : letters.lexicon.reader.fullParse 12 (Input.ofString "S::=.\u3000x") =
        some (.error .noFullParse) := by decide +kernel
    cases read.only 12 _ given
  obtain ⟨front, rest, split, readable, longest, answers⟩ :=
    incomplete_behind_longest letters_separate unreadable
  have given : letters.lexicon.readGrammar 12 "S::=.\u3000x" =
      some (.error (.malformedGrammar .incomplete "S::=.\u3000x" 8)) := by decide +kernel
  have offset : front.utf8ByteSize = 8 := by simpa using (answers.only 12 _ given).symm
  exact ⟨letters_separate, unreadable, front, rest, split, readable, offset, longest⟩

end NameClasses

end AllParses
