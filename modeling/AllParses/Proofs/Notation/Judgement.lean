import AllParses.Proofs.Grammar.References
import AllParses.Proofs.Repetition

/-!
# How a grammar text is judged

What is answered for a text depends on all its readings, those that stop before its end included. The
recognizers may be ambiguous and may consume nothing, so there may be several complete readings, and
these may or may not give the same grammar.

`Judgement` lists the four answers, each with the condition on the readings under which it is given.
The conditions exclude each other and one of them holds of every text (`judgement_iff`), since there
always is a reading, the one of no rules, and since all that is left unread is a suffix of the text.
-/
namespace AllParses.Lexicon

variable {l : Lexicon} {text : String} {readings : List (Grammar × Input Char)} {g h : Grammar}
  {answer : Except ParseError Grammar}

/-- The grammars of the readings that consume the whole text. -/
def completeReadings (readings : List (Grammar × Input Char)) : List Grammar :=
  (readings.filter fun r => r.2.isEmpty).map Prod.fst

/-- The reading consumes the first `n` bytes of the text. -/
def Consumes (text : String) (r : Grammar × Input Char) (n : Nat) : Prop :=
  ∃ front, text.toList = front ++ r.2.symbols ∧ (String.ofList front).utf8ByteSize = n

/-- The place where the longest reading of a text stops before its end. It is found by subtracting
what is unread, so no reading may leave more than there is. -/
structure StopsAt (text : String) (readings : List (Grammar × Input Char)) (offset : Nat) :
    Prop where
  longest : IsGreatest {n | ∃ r ∈ readings, Consumes text r n} offset
  unread : ∀ r ∈ readings, r.2.utf8Size ≤ text.utf8ByteSize
  inside : offset < text.utf8ByteSize
  boundary : String.Pos.Raw.IsValid text ⟨offset⟩
  pointed : (ParseError.malformedGrammar .incomplete text offset).span? = some ⟨offset, 1⟩

/-- The four answers for a text, and what the readings of the text are like for each of them. -/
inductive Judgement (text : String) (readings : List (Grammar × Input Char)) :
    Except ParseError Grammar → Prop where
  /-- The complete readings give one grammar, and all its references are defined. -/
  | accepted {g : Grammar} (found : g ∈ completeReadings readings)
    (agree : ∀ h ∈ completeReadings readings, h = g) (closed : g.Closed) :
    Judgement text readings (.ok g)
  /-- No reading is complete. -/
  | incomplete {offset : Nat} (none : completeReadings readings = [])
    (stops : StopsAt text readings offset) :
    Judgement text readings (.error (.malformedGrammar .incomplete text offset))
  /-- Two complete readings give different grammars. -/
  | ambiguous {g h : Grammar} (one : g ∈ completeReadings readings)
    (other : h ∈ completeReadings readings) (differ : g ≠ h) :
    Judgement text readings (.error (.malformedGrammar .ambiguous text 0))
  /-- The complete readings give one grammar, and this is its first reference that is undefined. -/
  | undefined {g : Grammar} {rule name : String} (found : g ∈ completeReadings readings)
    (agree : ∀ h ∈ completeReadings readings, h = g) (first : g.FirstDangling rule name) :
    Judgement text readings (.error (.undefinedNonterminal name (some rule)))

/-! ## What is consumed and what is left -/

theorem Consumes.add_unread {r : Grammar × Input Char} {n : Nat} (consumes : Consumes text r n) :
    n + r.2.utf8Size = text.utf8ByteSize := by
  obtain ⟨front, split, rfl⟩ := consumes
  rw [← Input.utf8Size_ofString text]
  exact (Input.utf8Size_of_append split).symm

theorem exists_consumes {r : Grammar × Input Char} (suffix : r.2.symbols <:+ text.toList) :
    ∃ n, Consumes text r n := by
  obtain ⟨front, split⟩ := suffix
  exact ⟨_, front, split.symm, rfl⟩

/-- What is consumed are whole characters. -/
theorem Consumes.boundary {r : Grammar × Input Char} {n : Nat} (consumes : Consumes text r n) :
    String.Pos.Raw.IsValid text ⟨n⟩ := by
  obtain ⟨front, split, rfl⟩ := consumes
  refine String.Pos.Raw.isValid_iff_exists_append.mpr
    ⟨String.ofList front, String.ofList r.2.symbols, ?_, rfl⟩
  rw [← String.ofList_append, ← split, String.ofList_toList]

/-- What holds of all readings of a text together. -/
structure AreReadings (text : String) (readings : List (Grammar × Input Char)) : Prop where
  nonempty : readings ≠ []
  suffix : ∀ r ∈ readings, r.2.symbols <:+ text.toList
  consistent : ∀ r ∈ readings, r.1.Consistent

/-- There is a reading that leaves least. -/
theorem AreReadings.exists_least_unread (are : AreReadings text readings) :
    ∃ r ∈ readings, (readings.map fun s => s.2.utf8Size).min? = some r.2.utf8Size ∧
      ∀ s ∈ readings, r.2.utf8Size ≤ s.2.utf8Size := by
  obtain ⟨unread, least⟩ : ∃ unread, (readings.map fun s => s.2.utf8Size).min? = some unread := by
    rw [← Option.isSome_iff_exists, List.isSome_min?_iff]
    exact fun empty => are.nonempty (List.map_eq_nil_iff.mp empty)
  obtain ⟨attained, bound⟩ := List.min?_eq_some_iff.mp least
  obtain ⟨r, member, rfl⟩ := List.mem_map.mp attained
  exact ⟨r, member, least, fun s belongs => bound _ (List.mem_map_of_mem belongs)⟩

/-- Where no reading is complete, the one that leaves least is the longest one, and it leaves
something. -/
theorem AreReadings.incomplete_stopsAt (are : AreReadings text readings)
    (none : completeReadings readings = []) :
    ∃ offset, incomplete text readings = .malformedGrammar .incomplete text offset ∧
      StopsAt text readings offset := by
  obtain ⟨r, member, least, bound⟩ := are.exists_least_unread
  obtain ⟨n, consumes⟩ := exists_consumes (are.suffix r member)
  have whole := consumes.add_unread
  have partial_reading : r.2.isEmpty = false := by
    have all_partial := List.filter_eq_nil_iff.mp (List.map_eq_nil_iff.mp none)
    simpa using all_partial r member
  have left := Input.utf8Size_pos partial_reading
  have inside : n < text.utf8ByteSize := by omega
  refine ⟨n, ?offset, ⟨⟨r, member, consumes⟩, ?longest⟩, ?unread, inside, consumes.boundary, ?span⟩
  case offset =>
    have offset : text.utf8ByteSize - r.2.utf8Size = n := by omega
    rw [incomplete, Input.utf8Size_ofString]
    dsimp only
    rw [least, Option.getD_some, offset]
  case longest =>
    rintro k ⟨s, belongs, consumes'⟩
    have whole' := consumes'.add_unread
    have at_least := bound s belongs
    omega
  case unread =>
    intro s belongs
    obtain ⟨k, consumes'⟩ := exists_consumes (are.suffix s belongs)
    exact consumes'.add_unread ▸ Nat.le_add_left _ _
  case span => rw [ParseError.span?, if_pos inside]

/-! ## The verdict, by what the complete readings are like -/

theorem verdict_of_none (none : completeReadings readings = []) :
    verdict text readings = .error (incomplete text readings) := by
  rw [verdict, List.map_eq_nil_iff.mp none]

/-- All complete readings are compared with the first one. -/
theorem verdict_of_mem (text : String) (found : g ∈ completeReadings readings) :
    ∃ first others, completeReadings readings = first :: others ∧
      verdict text readings = if others.any fun other => other ≠ first then
        .error (.malformedGrammar .ambiguous text 0) else checkReferences first := by
  unfold completeReadings at found ⊢
  unfold verdict
  generalize (readings.filter fun r => r.2.isEmpty) = complete at found ⊢
  cases complete with
  | nil => cases found
  | cons r others =>
    refine ⟨r.1, others.map Prod.fst, rfl, ?_⟩
    rw [List.any_map]
    rfl

/-- A text whose complete readings all give one grammar is judged by the check of this grammar. -/
theorem verdict_of_agree (found : g ∈ completeReadings readings)
    (agree : ∀ h ∈ completeReadings readings, h = g) :
    verdict text readings = checkReferences g := by
  obtain ⟨first, others, complete, judged⟩ := verdict_of_mem text found
  rw [complete] at agree
  obtain rfl : first = g := agree first List.mem_cons_self
  rw [judged, if_neg]
  simpa using fun other member => agree other (List.mem_cons_of_mem first member)

/-- It is enough to compare with the first reading: two different grammars are not both its own. -/
theorem verdict_of_differ (one : g ∈ completeReadings readings)
    (other : h ∈ completeReadings readings) (differ : g ≠ h) :
    verdict text readings = .error (.malformedGrammar .ambiguous text 0) := by
  obtain ⟨first, others, complete, judged⟩ := verdict_of_mem text one
  rw [judged, if_pos]
  by_contra same
  have all_first : ∀ k ∈ completeReadings readings, k = first := by
    rw [complete]
    simpa using same
  exact differ ((all_first g one).trans (all_first h other).symm)

theorem completeReadings_cases (readings : List (Grammar × Input Char)) :
    completeReadings readings = [] ∨
      (∃ g ∈ completeReadings readings, ∀ h ∈ completeReadings readings, h = g) ∨
      ∃ g ∈ completeReadings readings, ∃ h ∈ completeReadings readings, g ≠ h := by
  cases completeReadings readings with
  | nil => exact .inl rfl
  | cons g others =>
    by_cases agree : ∀ h ∈ g :: others, h = g
    · exact .inr (.inl ⟨g, List.mem_cons_self, agree⟩)
    · obtain ⟨h, member, differ⟩ : ∃ h ∈ g :: others, h ≠ g := by simpa using agree
      exact .inr (.inr ⟨h, member, g, List.mem_cons_self, differ⟩)

theorem consistent_of_complete (are : AreReadings text readings)
    (found : g ∈ completeReadings readings) : g.Consistent := by
  obtain ⟨r, member, rfl⟩ := List.mem_map.mp found
  exact are.consistent r (List.mem_of_mem_filter member)

theorem judgement_verdict (are : AreReadings text readings) :
    Judgement text readings (verdict text readings) := by
  obtain none | ⟨g, found, agree⟩ | ⟨g, one, h, other, differ⟩ := completeReadings_cases readings
  · obtain ⟨offset, error, stops⟩ := are.incomplete_stopsAt none
    rw [verdict_of_none none, error]
    exact .incomplete none stops
  · rw [verdict_of_agree found agree]
    cases first : g.danglingReferences.head? with
    | none =>
      have clean := List.head?_eq_none_iff.mp first
      rw [checkReferences_eq_ok_iff.mpr ⟨rfl, clean⟩]
      exact .accepted found agree ((consistent_of_complete are found).closed clean)
    | some reference =>
      obtain ⟨rule, name⟩ := reference
      have first := Grammar.head?_danglingReferences_eq_some_iff.mp first
      rw [checkReferences_of_firstDangling first]
      exact .undefined found agree first
  · rw [verdict_of_differ one other differ]
    exact .ambiguous one other differ

/-- Each of the four conditions leads to its own answer and to no other one. -/
theorem judgement_iff (are : AreReadings text readings) :
    Judgement text readings answer ↔ answer = verdict text readings := by
  refine ⟨fun judged => ?_, fun same => same ▸ judgement_verdict are⟩
  cases judged with
  | accepted found agree closed =>
    rw [verdict_of_agree found agree]
    have clean := (consistent_of_complete are found).closed_iff.mp closed
    exact (checkReferences_eq_ok_iff.mpr ⟨rfl, clean⟩).symm
  | incomplete none stops =>
    obtain ⟨offset, error, stops'⟩ := are.incomplete_stopsAt none
    rw [verdict_of_none none, error, stops.longest.unique stops'.longest]
  | ambiguous one other differ => exact (verdict_of_differ one other differ).symm
  | undefined found agree first =>
    rw [verdict_of_agree found agree, checkReferences_of_firstDangling first]

/-! ## The readings of a lexicon -/

theorem Finitary.exists_readings (safe : l.SuffixSafe) (finite : l.Finitary) (text : String) :
    ∃ readings, l.reader.Settles (Input.ofString text) readings ∧
      (Grammar.empty, (Input.ofString text).skipLayout) ∈ readings ∧ AreReadings text readings := by
  have rules : l.ruleReader.many.Finitary := .many safe.ruleReader (finite.ruleReader safe)
  obtain ⟨runs, settles⟩ := rules (Input.ofString text)
  have readings := reader_settles_of_runs settles
  have no_rules := List.mem_map_of_mem (f := fun run : List Grammar.Rule × Input Char =>
    (Grammar.ofRules run.1, run.2.skipLayout)) settles.nil_mem_many
  refine ⟨_, readings, no_rules, List.ne_nil_of_mem no_rules, ?_, ?_⟩
  · obtain ⟨budget, all⟩ := readings.exists
    exact safe.reader.all all
  · intro r member
    obtain ⟨run, -, rfl⟩ := List.mem_map.mp member
    exact Grammar.consistent_ofRules run.1

/-- With recognizers that leave suffixes and have finitely many results every text has one judgement,
and this is what is answered: from some budget on, and with steady recognizers whenever there is an
answer at all. Among the readings that are judged there always is the one of no rules. -/
theorem readGrammar_decides (safe : l.SuffixSafe) (finite : l.Finitary) (text : String) :
    ∃ readings, l.reader.Settles (Input.ofString text) readings ∧
      (Grammar.empty, (Input.ofString text).skipLayout) ∈ readings ∧
      (∃! answer, Judgement text readings answer) ∧
      ∀ answer,
        ((∀ᶠ budget in Filter.atTop, l.readGrammar budget text = some answer) ↔
          Judgement text readings answer) ∧
        (l.Steady → ((∃ budget, l.readGrammar budget text = some answer) ↔
          Judgement text readings answer)) := by
  obtain ⟨readings, settles, no_rules, are⟩ := finite.exists_readings safe text
  have eventually : ∀ᶠ budget in Filter.atTop,
      l.readGrammar budget text = some (verdict text readings) :=
    settles.mono fun _ => readGrammar_eq_verdict
  refine ⟨readings, settles, no_rules, ?unique, fun answer => ⟨?final, fun steady => ?ever⟩⟩
  case unique =>
    exact ⟨_, judgement_verdict are, fun other judged => (judgement_iff are).mp judged⟩
  case final =>
    rw [judgement_iff are]
    refine ⟨fun given => ?_, fun same => same ▸ eventually⟩
    obtain ⟨budget, one, two⟩ := (given.and eventually).exists
    exact Option.some.inj (one.symm.trans two)
  case ever =>
    rw [judgement_iff are]
    have answers := Parser.Answers.of_eventually (fun _ _ _ => steady.readGrammar_kept) eventually
    refine ⟨fun ⟨budget, given⟩ => answers.only budget answer given, fun same => ?_⟩
    exact same ▸ answers.exists_budget

/-- All four judgements occur. The layout in the first text takes three bytes, and reading stops behind
it. In the last text names can be read from nothing. -/
theorem letters_judgements :
    NameClasses.letters.lexicon.SuffixSafe ∧ NameClasses.letters.lexicon.Finitary ∧
    absent.SuffixSafe ∧ absent.Finitary ∧
    (∃ readings, NameClasses.letters.lexicon.reader.Settles (.ofString "S::=.\u3000x") readings ∧
      completeReadings readings = [] ∧ StopsAt "S::=.\u3000x" readings 8) ∧
    (∃ readings, NameClasses.letters.lexicon.reader.Settles (.ofString "S::=aT.") readings ∧
      ∃ g ∈ completeReadings readings, g.FirstDangling "S" "T") ∧
    (∃ readings, NameClasses.letters.lexicon.reader.Settles (.ofString "S::=aS|.") readings ∧
      ∃ g ∈ completeReadings readings, g.Closed ∧ g.order = ["S"]) ∧
    ∃ readings, absent.reader.Settles (.ofString "S::=.") readings ∧
      ∃ g ∈ completeReadings readings, ∃ h ∈ completeReadings readings, g ≠ h := by
  have safe : NameClasses.letters.lexicon.SuffixSafe :=
    ⟨Recognizer.run_suffixSafe _, Recognizer.run_suffixSafe _⟩
  have finite : NameClasses.letters.lexicon.Finitary :=
    ⟨Recognizer.run_finitary _, Recognizer.run_finitary _⟩
  have steady := NameClasses.letters.lexicon_steady
  refine ⟨safe, finite, absent_suffixSafe, absent_finitary, ?incomplete, ?undefined, ?accepted, ?ambiguous⟩
  case incomplete =>
    obtain ⟨readings, settles, -, -, decides⟩ := readGrammar_decides safe finite "S::=.\u3000x"
    have given : NameClasses.letters.lexicon.readGrammar 12 "S::=.\u3000x" =
        some (.error (.malformedGrammar .incomplete "S::=.\u3000x" 8)) := by decide +kernel
    cases ((decides _).2 steady).mp ⟨12, given⟩ with
    | incomplete none stops => exact ⟨readings, settles, none, stops⟩
  case undefined =>
    obtain ⟨readings, settles, -, -, decides⟩ := readGrammar_decides safe finite "S::=aT."
    have given : NameClasses.letters.lexicon.readGrammar 12 "S::=aT." =
        some (.error (.undefinedNonterminal "T" (some "S"))) := by decide +kernel
    cases ((decides _).2 steady).mp ⟨12, given⟩ with
    | undefined found agree first => exact ⟨readings, settles, _, found, first⟩
  case accepted =>
    obtain ⟨readings, settles, -, -, decides⟩ := readGrammar_decides safe finite "S::=aS|."
    have given : NameClasses.letters.lexicon.readGrammar 12 "S::=aS|." =
        some (.ok (.ofRules [("S", [[.terminal "a", .nonterminal "S"], []])])) := by decide +kernel
    cases ((decides _).2 steady).mp ⟨12, given⟩ with
    | accepted found agree closed => exact ⟨readings, settles, _, found, closed, by decide +kernel⟩
  case ambiguous =>
    obtain ⟨readings, settles, -, -, decides⟩ :=
      readGrammar_decides absent_suffixSafe absent_finitary "S::=."
    have given : absent.readGrammar 9 "S::=." =
        some (.error (.malformedGrammar .ambiguous "S::=." 0)) := by decide +kernel
    cases ((decides _).2 absent_steady).mp ⟨9, given⟩ with
    | ambiguous one other differ => exact ⟨readings, settles, _, one, _, other, differ⟩

end AllParses.Lexicon
