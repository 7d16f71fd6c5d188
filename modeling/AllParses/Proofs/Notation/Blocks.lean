import AllParses.Proofs.Grammar.Whole
import AllParses.Proofs.Notation.Compiled
import AllParses.Proofs.Notation.Judgement
import Mathlib.Combinatorics.Enumerative.DyckWord

/-!
# A parser of balanced blocks

The grammar `BLOCK ::= begin BLOCK end BLOCK | .` is read from its text, and the parser that is made
of it accepts the balanced sequences of `begin` and `end` and nothing else, each with one tree
(`blocks_accept_balanced`).

* Balanced lexemes are the Dyck words (`balanced_iff_exists_word`), and a word that is not empty is
  uniquely a word in brackets and a word behind them. This is a binary tree, and the derivations of a
  block are those of the binary trees (`exists_block`).
* So there is one derivation for balanced leaves and none for others. The two lexemes are a prefix
  code, hence a text has at most one list of leaves as well.
-/
namespace AllParses

open AllParses.Parser (Answers)
open Grammar (Alternative Options Derives)

namespace Blocks

/-! ## Balanced lexemes -/

/-- As many `end` as `begin`, and at no place more of them so far. -/
structure Balanced (lexemes : List String) : Prop where
  brackets : ∀ lexeme ∈ lexemes, lexeme = "begin" ∨ lexeme = "end"
  closed : lexemes.count "begin" = lexemes.count "end"
  opened : ∀ n, (lexemes.take n).count "end" ≤ (lexemes.take n).count "begin"

/-- The lexemes that stand for the two brackets. -/
def lexeme : DyckStep → String
  | .U => "begin"
  | .D => "end"

theorem lexeme_injective : lexeme.Injective := by
  intro a b same
  cases a <;> cases b <;> first | rfl | simp [lexeme] at same

/-- The lexemes of a word of brackets. -/
def lexemes (word : DyckWord) : List String :=
  word.toList.map lexeme

theorem lexemes_injective : lexemes.Injective := fun _ _ same =>
  DyckWord.ext (List.map_injective_iff.mpr lexeme_injective same)

theorem count_lexeme (steps : List DyckStep) (step : DyckStep) :
    (steps.map lexeme).count (lexeme step) = steps.count step :=
  List.count_map_of_injective steps lexeme lexeme_injective step

theorem balanced_lexemes (word : DyckWord) : Balanced (lexemes word) where
  brackets := by
    intro name member
    obtain ⟨step, -, rfl⟩ := List.mem_map.mp member
    cases step
    · exact .inl rfl
    · exact .inr rfl
  closed := by
    have closed := word.count_U_eq_count_D
    rwa [← count_lexeme, ← count_lexeme] at closed
  opened n := by
    have opened := word.count_D_le_count_U n
    rwa [← count_lexeme, ← count_lexeme, List.map_take] at opened

theorem exists_steps {names : List String}
    (brackets : ∀ name ∈ names, name = "begin" ∨ name = "end") :
    ∃ steps : List DyckStep, steps.map lexeme = names := by
  induction names with
  | nil => exact ⟨[], rfl⟩
  | cons name names ih =>
    obtain ⟨steps, rfl⟩ := ih fun other member => brackets other (List.mem_cons_of_mem name member)
    rcases brackets name List.mem_cons_self with rfl | rfl
    · exact ⟨.U :: steps, rfl⟩
    · exact ⟨.D :: steps, rfl⟩

/-- Balanced lexemes are those of a word of balanced brackets. -/
theorem balanced_iff_exists_word {names : List String} :
    Balanced names ↔ ∃ word : DyckWord, lexemes word = names := by
  constructor
  · rintro ⟨brackets, closed, opened⟩
    obtain ⟨steps, rfl⟩ := exists_steps brackets
    refine ⟨⟨steps, ?_, fun n => ?_⟩, rfl⟩
    · rw [← count_lexeme, ← count_lexeme]
      exact closed
    · rw [← count_lexeme, ← count_lexeme, List.map_take]
      exact opened n
  · rintro ⟨word, rfl⟩
    exact balanced_lexemes word

/-! ## Derivations of a block -/

/-- The symbols of a block that is not empty. -/
def inBrackets : Alternative :=
  [.terminal "begin", .nonterminal "BLOCK", .terminal "end", .nonterminal "BLOCK"]

/-- The grammar of `BLOCK ::= begin BLOCK end BLOCK | .` -/
def grammar : Grammar :=
  .ofRules [("BLOCK", [inBrackets, []])]

theorem alternatives?_grammar (name : String) :
    grammar.alternatives? name = if name = "BLOCK" then some [inBrackets, []] else none := by
  simp [grammar, Grammar.ofRules, Grammar.alternatives?_addRule]

/-- The derivation of the block that a binary tree describes: the left subtree is what stands in the
first brackets, and the right one is what stands behind them. -/
def block : BinaryTree Unit → Derivation
  | .nil => .expansion "BLOCK" 1 []
  | .node _ inside behind =>
    .expansion "BLOCK" 0 [.terminal "begin", block inside, .terminal "end", block behind]

theorem symbol_block (shape : BinaryTree Unit) : (block shape).symbol = .nonterminal "BLOCK" := by
  cases shape <;> rfl

theorem leaves_block (shape : BinaryTree Unit) :
    (block shape).leaves = lexemes (DyckWord.ofTree shape) := by
  induction shape with
  | nil => rfl
  | node _ inside behind ih_inside ih_behind =>
    have word : (DyckWord.ofTree (.node () inside behind)).toList =
        .U :: ((DyckWord.ofTree inside).toList ++ .D :: (DyckWord.ofTree behind).toList) := by
      rw [DyckWord.ofTree]
      change ([DyckStep.U] ++ _ ++ [DyckStep.D]) ++ _ = _
      simp
    rw [lexemes, word, List.map_cons, List.map_append, List.map_cons, block]
    simp [ih_inside, ih_behind, lexemes, lexeme]

theorem valid_block (shape : BinaryTree Unit) : (block shape).Valid grammar := by
  have rule : grammar.alternatives? "BLOCK" = some [inBrackets, []] := by
    rw [alternatives?_grammar, if_pos rfl]
  induction shape with
  | nil => exact .expansion rule rfl (by simp)
  | node _ inside behind ih_inside ih_behind =>
    refine .expansion rule ?_ ?_
    · rw [List.map_cons, List.map_cons, List.map_cons, List.map_cons, symbol_block, symbol_block]
      rfl
    · simp [ih_inside, ih_behind, Derivation.Valid.terminal]

theorem eq_terminal_of_symbol {d : Derivation} {name : String} (symbol : d.symbol = .terminal name) :
    d = .terminal name := by
  cases d with
  | terminal other => exact congrArg Derivation.terminal (Grammar.Symbol.terminal.inj symbol)
  | expansion => cases symbol

/-- There are no other derivations of a block. -/
theorem exists_block {d : Derivation} (valid : d.Valid grammar)
    (symbol : d.symbol = .nonterminal "BLOCK") : ∃ shape, block shape = d := by
  induction valid with
  | terminal name => cases symbol
  | @expansion name alternatives choice children rule chosen each ih =>
    obtain rfl : name = "BLOCK" := Grammar.Symbol.nonterminal.inj symbol
    rw [alternatives?_grammar, if_pos rfl, Option.some.injEq] at rule
    subst rule
    match choice with
    | 0 =>
      obtain ⟨first, ds, rfl, first_symbol, more⟩ :=
        List.map_eq_cons_iff.mp (Option.some.inj chosen).symm
      obtain ⟨second, ds, rfl, second_symbol, more⟩ := List.map_eq_cons_iff.mp more
      obtain ⟨third, ds, rfl, third_symbol, more⟩ := List.map_eq_cons_iff.mp more
      obtain ⟨fourth, ds, rfl, fourth_symbol, more⟩ := List.map_eq_cons_iff.mp more
      obtain rfl := List.map_eq_nil_iff.mp more
      obtain ⟨inside, rfl⟩ := ih second (by simp) second_symbol
      obtain ⟨behind, rfl⟩ := ih fourth (by simp) fourth_symbol
      rw [eq_terminal_of_symbol first_symbol, eq_terminal_of_symbol third_symbol]
      exact ⟨.node () inside behind, rfl⟩
    | 1 =>
      obtain rfl := List.map_eq_nil_iff.mp (Option.some.inj chosen).symm
      exact ⟨.nil, rfl⟩

/-- The leaves of blocks are the balanced lexemes. -/
theorem balanced_iff_exists_block {names : List String} :
    Balanced names ↔ ∃ shape, (block shape).leaves = names := by
  rw [balanced_iff_exists_word]
  constructor
  · rintro ⟨word, rfl⟩
    exact ⟨word.toTree, by rw [leaves_block, DyckWord.ofTree_toTree]⟩
  · rintro ⟨shape, rfl⟩
    exact ⟨_, (leaves_block shape).symm⟩

theorem eq_of_leaves {shape other : BinaryTree Unit}
    (same : (block shape).leaves = (block other).leaves) : shape = other := by
  rw [leaves_block, leaves_block] at same
  have trees := congrArg DyckWord.toTree (lexemes_injective same)
  rwa [DyckWord.toTree_ofTree, DyckWord.toTree_ofTree] at trees

/-! ## The parser -/

theorem grammar_progressive {σ : Type} [Alphabet σ]
    (spelt : ∀ lexeme : DyckStep, (Alphabet.spell (Blocks.lexeme lexeme) : List σ) ≠ []) :
    grammar.Progressive σ := by
  refine .of_rank (fun _ => 0) fun name alternatives rule => ?_
  rw [alternatives?_grammar, Option.ite_none_right_eq_some, Option.some.injEq] at rule
  obtain ⟨-, rfl⟩ := rule
  simp [inBrackets, Grammar.leading, Grammar.Symbol.isTerminal]
  exact ⟨spelt .U, spelt .D⟩

/-- The parser accepts exactly the input that stands for balanced lexemes. These are the leaves of the
tree, and there is no other full parse. -/
structure AcceptsBalanced {σ : Type} (p : Parser σ ParseTree) (x : Input σ)
    (stands : List String → Prop) : Prop where
  accepts_iff : (∃ tree, Answers (fun budget => p.fullParse budget x) (.ok tree)) ↔
    ∃ names, Balanced names ∧ stands names
  leaves : ∀ tree names, Answers (fun budget => p.fullParse budget x) (.ok tree) →
    Balanced names → stands names → tree.leaves = names
  refuses : (∀ names, Balanced names → ¬ stands names) →
    Answers (fun budget => p.fullParse budget x) (.error .noFullParse)
  unambiguous : Answers (fun budget => p.isAmbiguous budget x) false

section

variable {σ : Type} [Alphabet σ] [DecidableEq σ] {o : Options} {x : Input σ}

/-- Where balanced lexemes that take up the input are unique, the parser of blocks finds them. -/
theorem acceptsBalanced (progressive : grammar.Progressive σ) {stands : List String → Prop}
    (covers_iff : ∀ names, Balanced names → (o.Covers x names ↔ stands names))
    (single : ∀ names others, Balanced names → Balanced others → stands names → stands others →
      names = others) :
    AcceptsBalanced (grammar.symbolParser o (.nonterminal "BLOCK")) x stands := by
  have balanced_leaves : ∀ shape, Balanced (block shape).leaves :=
    fun shape => balanced_iff_exists_block.mpr ⟨shape, rfl⟩
  by_cases found : ∃ shape, stands (block shape).leaves
  · obtain ⟨shape, stands_leaves⟩ := found
    have derives : Derives grammar o (.nonterminal "BLOCK") x (block shape) :=
      ⟨symbol_block shape, valid_block shape,
        (covers_iff _ (balanced_leaves shape)).mpr stands_leaves⟩
    have only : ∀ e, Derives grammar o (.nonterminal "BLOCK") x e → e = block shape := by
      intro e derives
      obtain ⟨other, rfl⟩ := exists_block derives.valid derives.symbol
      have stands_other := (covers_iff _ (balanced_leaves other)).mp derives.covers
      rw [eq_of_leaves (single _ _ (balanced_leaves other) (balanced_leaves shape) stands_other
        stands_leaves)]
    obtain ⟨parse, unambiguous⟩ := progressive.answers_of_unique derives only
    refine ⟨⟨fun _ => ⟨_, balanced_leaves shape, stands_leaves⟩, fun _ => ⟨_, parse⟩⟩, ?leaves,
      ?refuses, unambiguous⟩
    case leaves =>
      intro tree names answer balanced stands_names
      obtain rfl : tree = (block shape).tree := by simpa using answer.unique parse
      exact single _ _ (balanced_leaves shape) balanced stands_leaves stands_names
    case refuses => exact fun none => absurd stands_leaves (none _ (balanced_leaves shape))
  · have refuses : ∀ names, Balanced names → ¬ stands names := by
      intro names balanced stands_names
      obtain ⟨shape, rfl⟩ := balanced_iff_exists_block.mp balanced
      exact found ⟨shape, stands_names⟩
    have none : ∀ e, ¬ Derives grammar o (.nonterminal "BLOCK") x e := by
      intro e derives
      obtain ⟨shape, rfl⟩ := exists_block derives.valid derives.symbol
      exact refuses _ (balanced_leaves shape)
        ((covers_iff _ (balanced_leaves shape)).mp derives.covers)
    obtain ⟨refused, unambiguous⟩ := progressive.answers_of_none none
    refine ⟨⟨?accepted, ?stood⟩, ?leaves, fun _ => refused, unambiguous⟩
    case accepted =>
      rintro ⟨tree, answer⟩
      cases answer.unique refused
    case stood =>
      rintro ⟨names, balanced, stands_names⟩
      exact absurd stands_names (refuses names balanced)
    case leaves =>
      exact fun tree names _ balanced stands_names => absurd stands_names (refuses names balanced)

end

theorem brackets_code : PrefixCode fun name => name = "begin" ∨ name = "end" where
  nonempty := by
    rintro name (rfl | rfl) <;> decide
  visible := by
    rintro name (rfl | rfl) <;> exact BeginsOutside.cons_iff.mpr (by decide)
  prefixFree := by
    rintro name other (rfl | rfl) (rfl | rfl) front
    · rfl
    · exact absurd front (by decide)
    · exact absurd front (by decide)
    · rfl

/-- The text of the grammar. -/
def rules : String :=
  "BLOCK ::= begin BLOCK end BLOCK | ."

/-- Runs of upper case letters for nonterminals and of lower case letters for terminals. -/
def lexicon : Lexicon :=
  ⟨Recognizer.upper, Recognizer.lower⟩

theorem grammar_accepted :
    Answers (fun budget => lexicon.readGrammar budget rules) (.ok grammar) := by
  have read : lexicon.readGrammar 12 rules = some (.ok grammar) := rfl
  exact .of_kept (fun _ _ _ => NameClasses.letters.lexicon_steady.readGrammar_kept) read

theorem rules_compiled {σ : Type} [Alphabet σ] [DecidableEq σ] :
    Answers (fun budget => lexicon.compile {} budget rules (.nonterminal "BLOCK"))
      (.ok (grammar.symbolParser {} (.nonterminal "BLOCK") : Parser σ ParseTree)) := by
  have defined : ∀ name, Grammar.Symbol.nonterminal "BLOCK" = .nonterminal name →
      grammar.contains name = true := by
    rintro name ⟨⟩
    rw [Grammar.contains, alternatives?_grammar, if_pos rfl]
    rfl
  have compiled := Lexicon.compile_answers (o := {}) (σ := σ) grammar_accepted defined
  rwa [Grammar.startParser_of_unbounded grammar _ rfl] at compiled

/-- The parser that is made of the text of the grammar. On text it accepts the balanced lexemes with
any layout before each of them and none behind the last one, on tokens the balanced tokens. -/
theorem blocks_accept_balanced :
    ∃ (onText : Parser Char ParseTree) (onTokens : Parser String ParseTree),
      Answers (fun budget => lexicon.compile {} budget rules (.nonterminal "BLOCK")) (.ok onText) ∧
      Answers (fun budget => lexicon.compile {} budget rules (.nonterminal "BLOCK")) (.ok onTokens) ∧
      (∀ text, AcceptsBalanced onText text fun names => ∃ pieces : List Piece,
        pieces.map Piece.token = names ∧ Piece.text pieces = text) ∧
      ∀ tokens, AcceptsBalanced onTokens tokens fun names => tokens.symbols = names := by
  refine ⟨_, _, rules_compiled, rules_compiled, fun text => ?text, fun tokens => ?tokens⟩
  case text =>
    refine acceptsBalanced (grammar_progressive fun step => by cases step <;> decide)
      (fun names balanced => brackets_code.covers_text_iff rfl balanced.brackets) ?_
    rintro _ _ balanced balanced' ⟨pieces, rfl, rfl⟩ ⟨ps, rfl, same⟩
    have bracket : ∀ {qs : List Piece}, Balanced (qs.map Piece.token) →
        ∀ piece ∈ qs, piece.token = "begin" ∨ piece.token = "end" :=
      fun balanced piece member => balanced.brackets _ (List.mem_map_of_mem member)
    exact brackets_code.tokens_of_text (bracket balanced) (bracket balanced') same.symm
  case tokens =>
    refine acceptsBalanced (grammar_progressive fun step => List.cons_ne_nil _ _)
      (fun names _ => Options.covers_tokens_iff) ?_
    rintro _ _ - - rfl rfl
    rfl

end Blocks

end AllParses
