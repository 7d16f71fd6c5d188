import AllParses.Proofs.Grammar.References
import AllParses.Proofs.Notation.Exact

/-!
# A displayed grammar reads back

A displayed grammar is a text of the notation, with one space before every name and mark and a line
for each rule. What it spells are the rules of the grammar, except that a rule without alternatives
is shown like one with an empty alternative and cannot be told from it.
-/
namespace AllParses

open Grammar (Symbol Alternative Rule)

namespace Grammar

/-- The alternatives as they read back: none at all looks like the empty one. -/
def shown (alternatives : List Alternative) : List Alternative :=
  if alternatives = [] then [[]] else alternatives

end Grammar

namespace NameClasses

variable {k : NameClasses}

/-- The name of the rule and every name in its alternatives are runs of their classes. -/
structure NamesRule (k : NameClasses) (rule : Rule) : Prop where
  head : k.Names (.nonterminal rule.1)
  body : ∀ symbols ∈ rule.2, ∀ s ∈ symbols, k.Names s

/-- Every name in the grammar is a run of its class. -/
def WellNamed (k : NameClasses) (g : Grammar) : Prop :=
  ∀ rule ∈ g.rules, k.NamesRule rule

/-! ## The text of a displayed grammar -/

theorem isGap_space : IsGap [' '] := by
  decide

theorem alternativeText_display {symbols : Alternative} (names : ∀ s ∈ symbols, k.Names s) :
    k.AlternativeText symbols (Grammar.displayAlternative symbols) := by
  induction symbols with
  | nil => exact .nil
  | cons s symbols ih =>
    have later := ih fun t member => names t (List.mem_cons_of_mem s member)
    have spaced : ∀ next ∈ symbols.head?, next.isTerminal = s.isTerminal →
        ∃ c ∈ (Grammar.displayAlternative symbols).head?, Unicode.isWhiteSpace c = true := by
      intro next first _
      obtain ⟨more, rfl⟩ := List.head?_eq_some_iff.mp first
      exact ⟨' ', rfl, by decide⟩
    exact .cons isGap_space (names s List.mem_cons_self) later spaced

theorem alternativesText_display {alternatives : List Alternative}
    (names : ∀ symbols ∈ alternatives, ∀ s ∈ symbols, k.Names s) :
    k.AlternativesText (Grammar.shown alternatives)
      (" |".toList.intercalate (alternatives.map Grammar.displayAlternative)) := by
  induction alternatives with
  | nil => exact .one .nil
  | cons symbols alternatives ih =>
    have first := alternativeText_display (names symbols List.mem_cons_self)
    have later := ih fun symbols member => names symbols (List.mem_cons_of_mem _ member)
    cases alternatives with
    | nil => simpa [Grammar.shown] using .one first
    | cons next alternatives =>
      have both := AlternativesText.more first isGap_space later
      simpa [Grammar.shown] using both

theorem ruleText_display {rule : Rule} (names : k.NamesRule rule) {gap : List Char}
    (layout : IsGap gap) : ∃ text, k.RuleText (rule.1, Grammar.shown rule.2) text ∧
      gap ++ Grammar.displayRule rule = text ++ ['\n'] := by
  have body := alternativesText_display names.body
  refine ⟨_, .intro layout names.head isGap_space body isGap_space, ?_⟩
  have marks : " ::=".toList = ' ' :: "::=".toList ∧ " .\n".toList = [' ', '.', '\n'] := ⟨rfl, rfl⟩
  rw [Grammar.displayRule, marks.1, marks.2]
  simp

/-- The end of a line belongs to the rule of the next line, as layout in front of its name. -/
theorem grammarText_display {rules : List Rule} (names : ∀ rule ∈ rules, k.NamesRule rule)
    {gap : List Char} (layout : IsGap gap) :
    k.GrammarText (rules.map fun (name, alternatives) => (name, Grammar.shown alternatives))
      (gap ++ rules.flatMap Grammar.displayRule) := by
  induction rules generalizing gap with
  | nil => simpa using .nil layout
  | cons rule rules ih =>
    obtain ⟨text, first, line⟩ := ruleText_display (names rule List.mem_cons_self) layout
    have newline : IsGap ['\n'] := by decide
    have later := ih (fun r member => names r (List.mem_cons_of_mem rule member)) newline
    have whole := GrammarText.cons first later
    rwa [← List.append_assoc, ← line, List.append_assoc] at whole

theorem settles_display (separate : k.Separate) {g : Grammar} (names : k.WellNamed g) :
    k.lexicon.reader.full.Settles (Input.ofString (toString g))
      [(g.mapRules Grammar.shown, .ofList [])] := by
  have none : IsGap [] := by decide
  have text : k.GrammarText _ g.display := grammarText_display names none
  have spelt : Input.ofString (toString g) = .ofList g.display :=
    congrArg Input.ofList String.toList_ofList
  rw [spelt]
  exact text.settles separate

/-! ## The names in a grammar that was read -/

theorem AlternativeText.names {symbols : Alternative} {text : List Char}
    (spelt : k.AlternativeText symbols text) : ∀ s ∈ symbols, k.Names s := by
  induction spelt with
  | nil => simp
  | cons _ name _ _ ih => exact List.forall_mem_cons.mpr ⟨name, ih⟩

theorem AlternativesText.names {alternatives : List Alternative} {text : List Char}
    (spelt : k.AlternativesText alternatives text) :
    ∀ symbols ∈ alternatives, ∀ s ∈ symbols, k.Names s := by
  induction spelt with
  | one alternative => simpa using alternative.names
  | more alternative _ _ ih => exact List.forall_mem_cons.mpr ⟨alternative.names, ih⟩

theorem AlternativesText.ne_nil {alternatives : List Alternative} {text : List Char}
    (spelt : k.AlternativesText alternatives text) : alternatives ≠ [] := by
  cases spelt <;> exact List.cons_ne_nil _ _

theorem RuleText.names {rule : Rule} {text : List Char} (spelt : k.RuleText rule text) :
    k.NamesRule rule ∧ rule.2 ≠ [] := by
  cases spelt with
  | intro _ head _ body _ => exact ⟨⟨head, body.names⟩, body.ne_nil⟩

theorem GrammarText.names {rules : List Rule} {text : List Char}
    (spelt : k.GrammarText rules text) : ∀ rule ∈ rules, k.NamesRule rule ∧ rule.2 ≠ [] := by
  induction spelt with
  | nil => simp
  | cons first _ ih => exact List.forall_mem_cons.mpr ⟨first.names, ih⟩

/-- Joined rules have good names and alternatives when the rules they are joined from have. -/
theorem GrammarText.names_ofRules {rules : List Rule} {text : List Char}
    (spelt : k.GrammarText rules text) :
    ∀ rule ∈ (Grammar.ofRules rules).rules, k.NamesRule rule ∧ rule.2 ≠ [] := by
  rintro ⟨name, alternatives⟩ member
  have found := (Grammar.consistent_ofRules rules).mem_rules_iff.mp member
  refine Grammar.forall_ofRules ?_ spelt.names found
  rintro name as bs ⟨left, some_alternative⟩ ⟨right, -⟩
  refine ⟨⟨left.head, fun symbols member => ?_⟩, List.append_ne_nil_of_left_ne_nil some_alternative _⟩
  rcases List.mem_append.mp member with inside | inside
  · exact left.body symbols inside
  · exact right.body symbols inside

/-- An accepted grammar was made of the rules that its text spells, and it has passed the check. -/
theorem grammarText_of_readGrammar (separate : k.Separate) {budget : Nat} {text : String}
    {g : Grammar} (accepted : k.lexicon.readGrammar budget text = some (.ok g)) :
    ∃ rules, k.GrammarText rules text.toList ∧ g = Grammar.ofRules rules ∧
      Lexicon.checkReferences g = .ok g := by
  have kept : ∀ small large a, small ≤ large → k.lexicon.readGrammar small text = some a →
      k.lexicon.readGrammar large text = some a := fun _ _ _ => k.lexicon_steady.readGrammar_kept
  by_cases spelt : ∃ rules, k.GrammarText rules text.toList
  · obtain ⟨rules, grammar⟩ := spelt
    have judged := Lexicon.readGrammar_of_full separate.sharp (grammar.settles separate)
    have checked := (Parser.Answers.of_eventually kept judged).only budget _ accepted
    obtain ⟨rfl, none⟩ := Lexicon.checkReferences_eq_ok_iff.mp checked.symm
    exact ⟨rules, grammar, rfl, checked.symm⟩
  · have refused := reader_full_refuses separate (not_exists.mp spelt)
    obtain ⟨error, judged⟩ := Lexicon.readGrammar_of_full_nil separate.sharp refused
    cases (Parser.Answers.of_eventually kept judged).only budget _ accepted

/-! ## Reading back -/

theorem shown_eq_self {alternatives : List Alternative} (some_alternative : alternatives ≠ []) :
    Grammar.shown alternatives = alternatives :=
  if_neg some_alternative

/-- A grammar with names of the two classes is displayed as a text with one complete reading: the same
grammar, with the same names in the same order, and with one empty alternative in a rule that had no
alternatives. So a grammar that was read from some text is displayed as a text of itself. -/
theorem readGrammar_display (separate : k.Separate) :
    (∀ g, Grammar.Built g → k.WellNamed g →
      Parser.Answers
        (fun budget => k.lexicon.reader.full.all budget (Input.ofString (toString g)))
        [(g.mapRules Grammar.shown, .ofList [])] ∧
      (g.mapRules Grammar.shown).order = g.order ∧
      (∀ name, (g.mapRules Grammar.shown).alternatives? name =
        (g.alternatives? name).map Grammar.shown) ∧
      ((∀ rule ∈ g.rules, rule.2 ≠ []) → g.mapRules Grammar.shown = g)) ∧
    ∀ budget text g, k.lexicon.readGrammar budget text = some (.ok g) →
      Parser.Answers (fun budget => k.lexicon.readGrammar budget (toString g)) (.ok g) := by
  constructor
  · intro g built names
    have consistent := built.consistent
    refine ⟨?_, consistent.order_mapRules _, consistent.alternatives?_mapRules _, ?_⟩
    · exact .of_eventually (fun _ _ _ => k.lexicon_steady.reader.full.all)
        (settles_display separate names)
    · intro some_alternative
      exact consistent.mapRules_eq_self fun rule member =>
        shown_eq_self (some_alternative rule member)
  · intro budget text g accepted
    obtain ⟨rules, spelt, rfl, checked⟩ := grammarText_of_readGrammar separate accepted
    have each := spelt.names_ofRules
    have same : (Grammar.ofRules rules).mapRules Grammar.shown = Grammar.ofRules rules :=
      (Grammar.consistent_ofRules rules).mapRules_eq_self fun rule member =>
        shown_eq_self (each rule member).2
    have read := settles_display separate fun rule member => (each rule member).1
    rw [same] at read
    have judged := Lexicon.readGrammar_of_full separate.sharp read
    rw [checked] at judged
    exact .of_eventually (fun _ _ _ => k.lexicon_steady.readGrammar_kept) judged

/-- An empty alternative behind another one, and a rule without alternatives. -/
def endlessOrEmpty : Grammar :=
  (Grammar.singleton "S" [[.terminal "a", .nonterminal "S"], []]).addRule "T" []

theorem letters_display :
    letters.Separate ∧ Grammar.Built endlessOrEmpty ∧ letters.WellNamed endlessOrEmpty ∧
    Parser.Answers
      (fun budget => letters.lexicon.reader.full.all budget (Input.ofString (toString endlessOrEmpty)))
      [(Grammar.ofRules [("S", [[.terminal "a", .nonterminal "S"], []]), ("T", [[]])], .ofList [])] ∧
    Parser.Answers (fun budget => letters.lexicon.readGrammar budget
        (toString (Grammar.ofRules [("S", [[.terminal "a", .nonterminal "S"], []])])))
      (.ok (Grammar.ofRules [("S", [[.terminal "a", .nonterminal "S"], []])])) := by
  have built : Grammar.Built endlessOrEmpty := (Grammar.Built.singleton _ _).addRule _ _
  have listed : endlessOrEmpty.rules =
      [("S", [[.terminal "a", .nonterminal "S"], []]), ("T", [])] := by
    decide +kernel
  have names : letters.WellNamed endlessOrEmpty := by
    have symbols : letters.Names (.terminal "a") ∧ letters.Names (.nonterminal "S") :=
      ⟨by decide, by decide⟩
    rw [WellNamed, listed]
    simp only [List.forall_mem_cons]
    exact ⟨⟨symbols.2, by simpa using symbols⟩, ⟨by decide, by simp⟩, by simp⟩
  have read := ((readGrammar_display letters_separate).1 _ built names).1
  rw [Grammar.mapRules, listed] at read
  have accepted : letters.lexicon.readGrammar 12 "S ::= a S | ." =
      some (.ok (Grammar.ofRules [("S", [[.terminal "a", .nonterminal "S"], []])])) := rfl
  exact ⟨letters_separate, built, names, read,
    (readGrammar_display letters_separate).2 _ _ _ accepted⟩

end NameClasses

end AllParses
