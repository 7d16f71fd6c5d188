import AllParses.Proofs.Grammar.Defined
import AllParses.Proofs.Notation.Text

/-!
# Compiled parsers

A parser is made of a text only when the grammar was accepted and its start symbol has passed the
check. An accepted grammar is closed, whatever the recognizers of the lexicon are like, so the parser
never comes to a nonterminal without a rule (`compile_expands_defined`).
-/
namespace AllParses

namespace Lexicon

open Grammar (Symbol Rule)

variable {l : Lexicon} {budget : Nat} {text : String} {g : Grammar}

/-- Whatever the lexicon is like, a text is malformed, or what is answered is the check of a grammar
made from rules. -/
theorem readGrammar_cases {answer : Except ParseError Grammar}
    (answers : l.readGrammar budget text = some answer) :
    (∃ fault offset, answer = .error (.malformedGrammar fault text offset)) ∨
      ∃ rules, answer = checkReferences (Grammar.ofRules rules) := by
  unfold readGrammar at answers
  dsimp only at answers
  split at answers
  case h_1 => cases answers
  case h_2 =>
    obtain ⟨readings, -, rfl⟩ := Option.map_eq_some_iff.mp answers
    exact .inl ⟨.incomplete, _, rfl⟩
  case h_3 first rest others found =>
    have member : (first, rest) ∈ (l.reader.full.run budget (Input.ofString text)).items := by
      rw [found]
      exact List.mem_cons_self
    rw [Parser.run_full, Results.items_filter] at member
    obtain ⟨rules, -, rfl⟩ := Parser.mem_items_map.mp (List.mem_of_mem_filter member)
    obtain ⟨differs, -, rfl⟩ := Option.map_eq_some_iff.mp answers
    cases differs with
    | true => exact .inl ⟨.ambiguous, 0, rfl⟩
    | false => exact .inr ⟨rules, rfl⟩

theorem closed_of_readGrammar (accepted : l.readGrammar budget text = some (.ok g)) : g.Closed := by
  rcases readGrammar_cases accepted with ⟨fault, offset, rejected⟩ | ⟨rules, checked⟩
  · cases rejected
  · obtain ⟨rfl, none⟩ := checkReferences_eq_ok_iff.mp checked.symm
    exact (Grammar.consistent_ofRules rules).closed none

/-- Reading a text never complains about a start symbol. -/
theorem readGrammar_ne_undefined_start (name : String) :
    l.readGrammar budget text ≠ some (.error (.undefinedNonterminal name none)) := by
  intro rejected
  rcases readGrammar_cases rejected with ⟨fault, offset, malformed⟩ | ⟨rules, checked⟩
  · cases malformed
  · unfold checkReferences at checked
    split at checked <;> cases checked

section Compile

variable {σ : Type} [Alphabet σ] [DecidableEq σ] {o : Grammar.Options} {start : Symbol}

theorem checkStart_eq_ok_iff :
    checkStart g start = .ok () ↔ ∀ name, start = .nonterminal name → g.contains name = true := by
  cases start with
  | terminal => simp [checkStart]
  | nonterminal name => simp [checkStart]

theorem compile_eq_some_iff {answer : Except ParseError (Parser σ ParseTree)} :
    l.compile o budget text start = some answer ↔ ∃ read, l.readGrammar budget text = some read ∧
      (read.bind fun g => (checkStart g start).bind fun _ => .ok (g.startParser o start)) = answer :=
  Option.map_eq_some_iff

/-- When a parser comes out, its grammar was accepted and its start symbol has passed the check. -/
theorem compile_eq_ok_iff {parser : Parser σ ParseTree} :
    l.compile o budget text start = some (.ok parser) ↔
      ∃ g, l.readGrammar budget text = some (.ok g) ∧
        (∀ name, start = .nonterminal name → g.contains name = true) ∧
          g.startParser o start = parser := by
  simp only [compile_eq_some_iff, ← checkStart_eq_ok_iff]
  constructor
  · rintro ⟨read, answer, compiled⟩
    cases read with
    | error error => cases compiled
    | ok g =>
      cases checked : checkStart g start with
      | error error => simp [Except.bind, checked] at compiled
      | ok => exact ⟨g, answer, checked, by simpa [Except.bind, checked] using compiled⟩
  · rintro ⟨g, answer, checked, rfl⟩
    exact ⟨.ok g, answer, by simp [Except.bind, checked]⟩

/-- An accepted text answers with the parser of every start symbol that has a rule. -/
theorem compile_answers
    (accepted : Parser.Answers (fun budget => l.readGrammar budget text) (.ok g))
    (defined : ∀ name, start = .nonterminal name → g.contains name = true) :
    Parser.Answers (fun budget => l.compile o budget text start)
      (.ok (g.startParser o start : Parser σ ParseTree)) := by
  have compiled := accepted.map fun read =>
    read.bind fun g => (checkStart g start).bind fun _ =>
      .ok (g.startParser o start : Parser σ ParseTree)
  rwa [Except.bind, checkStart_eq_ok_iff.mpr defined] at compiled

/-- Only the check of the start symbol reports a missing rule that nobody refers to. -/
theorem compile_eq_undefined_start_iff {missing : String} :
    (l.compile o budget text start : Option (Except ParseError (Parser σ ParseTree))) =
        some (.error (.undefinedNonterminal missing none)) ↔
      start = .nonterminal missing ∧
        ∃ g, l.readGrammar budget text = some (.ok g) ∧ g.contains missing = false := by
  rw [compile_eq_some_iff]
  constructor
  · rintro ⟨read, answer, rejected⟩
    cases read with
    | error error =>
      obtain rfl : error = .undefinedNonterminal missing none := by
        simpa [Except.bind] using rejected
      exact absurd answer (readGrammar_ne_undefined_start missing)
    | ok g =>
      cases start with
      | terminal name => simp [Except.bind, checkStart] at rejected
      | nonterminal name =>
        cases defined : g.contains name with
        | true => simp [Except.bind, checkStart, defined] at rejected
        | false =>
          obtain rfl : name = missing := by simpa [Except.bind, checkStart, defined] using rejected
          exact ⟨rfl, g, answer, defined⟩
  · rintro ⟨rfl, g, answer, undefined⟩
    exact ⟨.ok g, answer, by simp [Except.bind, checkStart, undefined]⟩

/-- Whatever expansions the parser of a text comes to, on any input and however many results are asked
for, they are of nonterminals with a rule; so rules for other names would change nothing. A terminal
passes as start symbol of every accepted grammar, and a nonterminal does unless it has no rule. -/
theorem compile_expands_defined (l : Lexicon) (o : Grammar.Options) (budget : Nat) (text : String)
    (start : Symbol) :
    (∀ parser : Parser σ ParseTree, l.compile o budget text start = some (.ok parser) →
      ∃ g, l.readGrammar budget text = some (.ok g) ∧ g.startParser o start = parser ∧
        (∀ steps depth (x y : Input σ) name, g.Expands o steps depth start x name y →
          g.contains name = true) ∧
        ∀ h : Grammar,
          (∀ name, g.contains name = true → h.alternatives? name = g.alternatives? name) →
            h.startParser o start = parser) ∧
    (∀ name g, start = .terminal name → l.readGrammar budget text = some (.ok g) →
      l.compile o budget text start = some (.ok (g.startParser o start : Parser σ ParseTree))) ∧
    ∀ name missing, start = .nonterminal name →
      ((l.compile o budget text start : Option (Except ParseError (Parser σ ParseTree))) =
          some (.error (.undefinedNonterminal missing none)) ↔
        missing = name ∧
          ∃ g, l.readGrammar budget text = some (.ok g) ∧ g.contains name = false) := by
  refine ⟨fun parser compiled => ?_, ?_, ?_⟩
  · obtain ⟨g, read, defined, rfl⟩ := compile_eq_ok_iff.mp compiled
    have closed := closed_of_readGrammar read
    exact ⟨g, read, rfl, fun steps depth x y name => closed.contains_of_expands defined,
      fun h => closed.startParser_congr defined⟩
  · rintro name g rfl read
    exact compile_eq_ok_iff.mpr ⟨g, read, by simp, rfl⟩
  · rintro name missing rfl
    rw [compile_eq_undefined_start_iff, Grammar.Symbol.nonterminal.injEq]
    constructor
    · rintro ⟨rfl, undefined⟩
      exact ⟨rfl, undefined⟩
    · rintro ⟨rfl, undefined⟩
      exact ⟨rfl, undefined⟩

/-- The grammar of `S ::= a S | .`. -/
def repeated : Grammar :=
  .ofRules [("S", [[.terminal "a", .nonterminal "S"], []])]

/-- Its expansions come back to `S` behind every `a`, and a start symbol without a rule is
rejected. -/
theorem repeated_expands_defined :
    NameClasses.letters.lexicon.compile {} 12 "S ::= a S | ." (.nonterminal "S") =
        some (.ok (repeated.startParser {} (.nonterminal "S") : Parser Char ParseTree)) ∧
      repeated.Expands {} 2 2 (.nonterminal "S") (.ofString "aa") "S" (.ofString "a") ∧
      (∀ steps depth (x y : Input Char) name,
        repeated.Expands {} steps depth (.nonterminal "S") x name y →
          repeated.contains name = true) ∧
      (NameClasses.letters.lexicon.compile {} 12 "S ::= a S | ." (.nonterminal "T") :
          Option (Except ParseError (Parser Char ParseTree))) =
        some (.error (.undefinedNonterminal "T" none)) := by
  have read : NameClasses.letters.lexicon.readGrammar 12 "S ::= a S | ." = some (.ok repeated) := rfl
  have compiled : NameClasses.letters.lexicon.compile {} 12 "S ::= a S | ." (.nonterminal "S") =
      some (.ok (repeated.startParser {} (.nonterminal "S") : Parser Char ParseTree)) := rfl
  obtain ⟨g, read', -, defined, -⟩ :=
    (compile_expands_defined NameClasses.letters.lexicon {} 12 _ _).1 _ compiled
  obtain rfl : repeated = g := by simpa [read] using read'
  have found : repeated.alternatives? "S" = some [[.terminal "a", .nonterminal "S"], []] := by
    decide +kernel
  have reached : ([.terminal "a"], Input.ofString "a") ∈ ((Grammar.sequenceOf
      (repeated.symbolWithin {} 1) [.terminal "a"]).run 2 (Input.ofString "aa")).items :=
    List.mem_singleton.mpr rfl
  have undefined := (@compile_expands_defined Char _ _ NameClasses.letters.lexicon {} 12
    "S ::= a S | ." (.nonterminal "T")).2.2 "T" "T" rfl
  exact ⟨compiled, .inside found List.mem_cons_self reached .here, defined,
    undefined.mpr ⟨rfl, repeated, read, by decide +kernel⟩⟩

end Compile

end Lexicon

end AllParses
