import AllParses.Proofs.Grammar.Termination
import AllParses.Proofs.Parser.Mirrored
import AllParses.Proofs.Parser.Query
import AllParses.Proofs.Recognizer
import AllParses.Proofs.Remainders

/-!
# Texts and their tokens

A text of tokens with layout before each of them is parsed like the list of its tokens
(`text_agrees_with_tokens`), provided that the names of the terminals and the tokens form a
`PrefixCode`. The token at the front of the text is then the only lexeme there, also where the next
token follows without layout between them.

* The parsers of a grammar mirror each other in two alphabets if stripping a lexeme does
  (`startParser_mirrors`). This is about every grammar and every budget.
* Stripping a lexeme from the text leads from token to token (`stripsAlike`). A result that consumes
  nothing keeps the layout in front of it, so what is left always begins with the layout of a token.
-/
namespace AllParses

open AllParses.Parser (Mirrors CompleteParses)

namespace Grammar

section

variable {σ τ α : Type} {place : Input τ → Input σ} {whole : Input τ}
variable {p : Symbol → Parser σ α} {q : Symbol → Parser τ α}

theorem sequenceOf_mirrors (safe : ∀ s, (q s).SuffixSafe) {symbols : Alternative}
    (each : ∀ s ∈ symbols, Mirrors place whole (p s) (q s)) :
    Mirrors place whole (sequenceOf p symbols) (sequenceOf q symbols) := by
  induction symbols using List.reverseRecOn with
  | nil => exact .succeed []
  | append_singleton symbols s ih =>
    have front := ih fun t member => each t (List.mem_append_left [s] member)
    have last := each s (List.mem_append_right symbols List.mem_cons_self)
    rw [sequenceOf_concat, sequenceOf_concat]
    exact (front.andThen (sequenceOf_suffixSafe safe symbols) last).map _

theorem choiceOf_mirrors (safe : ∀ s, (q s).SuffixSafe) {alternatives : List Alternative}
    (each : ∀ symbols ∈ alternatives, ∀ s ∈ symbols, Mirrors place whole (p s) (q s)) :
    Mirrors place whole (choiceOf p alternatives) (choiceOf q alternatives) := by
  induction alternatives with
  | nil => exact .fail
  | cons symbols alternatives ih =>
    have first := sequenceOf_mirrors safe (each symbols List.mem_cons_self)
    have others := ih fun more among => each more (List.mem_cons_of_mem symbols among)
    rw [choiceOf, choiceOf, List.map_cons, List.map_cons, Parser.anyOf_cons, Parser.anyOf_cons]
    exact first.either others

end

section

variable {σ τ : Type} [Alphabet σ] [DecidableEq σ] [Alphabet τ] [DecidableEq τ]
variable {place : Input τ → Input σ} {whole : Input τ} {g : Grammar} {o : Options}

/-- The lexeme is stripped from corresponding inputs, or from neither of them, and what is left
corresponds again. -/
def Options.StripsAlike (o : Options) (place : Input τ → Input σ) (whole : Input τ)
    (name : String) : Prop :=
  ∀ y : Input τ, y.symbols <:+ whole.symbols →
    o.strip? (place y) name = (o.strip? y name).map place

theorem terminalParser_mirrors {name : String} (alike : o.StripsAlike place whole name) :
    Mirrors place whole (terminalParser o name) (terminalParser o name) := by
  intro budget y behind
  rw [run_terminalParser, run_terminalParser, alike y behind]
  cases o.strip? y name <;> rfl

theorem symbolWithin_mirrors
    (terminals : ∀ name, g.HasTerminal name → o.StripsAlike place whole name) (depth : Nat)
    (s : Symbol) (root : ∀ name, s = .terminal name → o.StripsAlike place whole name) :
    Mirrors place whole (g.symbolWithin o depth s) (g.symbolWithin o depth s) := by
  induction depth, s using depth_induction with
  | terminal depth name =>
    rw [symbolWithin_terminal, symbolWithin_terminal]
    exact terminalParser_mirrors (root name rfl)
  | cut name => exact .exhausted
  | expand depth name ih =>
    rw [symbolWithin_succ, symbolWithin_succ]
    cases rule : g.alternatives? name with
    | none => exact .fail
    | some alternatives =>
      refine (choiceOf_mirrors (symbolWithin_suffixSafe g o depth) ?_).map _
      intro symbols among s member
      apply ih s
      rintro lexeme rfl
      exact terminals lexeme ⟨name, alternatives, symbols, rule, among, member⟩

/-- The parsers of a start symbol mirror each other if the terminals of the grammar are stripped
alike, and the start symbol too where it is a terminal. -/
theorem startParser_mirrors
    (terminals : ∀ name, g.HasTerminal name → o.StripsAlike place whole name)
    (s : Symbol) (root : ∀ name, s = .terminal name → o.StripsAlike place whole name) :
    Mirrors place whole (g.startParser o s) (g.startParser o s) := by
  have symbols : Mirrors place whole (g.symbolParser o s) (g.symbolParser o s) :=
    fun budget => symbolWithin_mirrors terminals budget s root budget
  unfold startParser
  split
  · exact symbols.limit _ fun budget y => by rw [starts_symbolParser, starts_symbolParser]
  · exact symbols

end

end Grammar

/-! ## Pieces of a text -/

/-- A token of a text, with the layout in front of it. -/
structure Piece where
  layout : List Char
  token : String
  isLayout : layout.all Alphabet.isLayout = true

namespace Piece

/-- The text that is made of the pieces. -/
def text (pieces : List Piece) : Input Char :=
  .ofList (pieces.flatMap fun piece => piece.layout ++ piece.token.toList)

/-- The tokens of the pieces. -/
def tokens (pieces : List Piece) : Input String :=
  .ofList (pieces.map Piece.token)

/-- The pieces whose tokens are left. -/
def remaining (pieces : List Piece) (left : Input String) : List Piece :=
  pieces.drop (pieces.length - left.size)

/-- What is left of the text when these tokens are left. -/
def textBehind (pieces : List Piece) (left : Input String) : Input Char :=
  text (remaining pieces left)

variable {pieces ps : List Piece}

theorem remaining_tokens (behind : ps <:+ pieces) : remaining pieces (tokens ps) = ps := by
  have count : (tokens ps).size = ps.length := List.length_map Piece.token
  rw [remaining, count, ← List.suffix_iff_eq_drop.mp behind]

theorem exists_tokens_of_suffix {y : Input String}
    (behind : y.symbols <:+ (tokens pieces).symbols) : ∃ ps, ps <:+ pieces ∧ y = tokens ps := by
  obtain ⟨ps, suffix, same⟩ := List.suffix_map_iff.mp behind
  exact ⟨ps, suffix, Input.ext same⟩

theorem tokens_remaining {y : Input String} (behind : y.symbols <:+ (tokens pieces).symbols) :
    tokens (remaining pieces y) = y := by
  obtain ⟨ps, suffix, rfl⟩ := exists_tokens_of_suffix behind
  rw [remaining_tokens suffix]

/-- Results on the tokens and their counterparts on the text leave the same pieces. -/
theorem exists_parses {α : Type} {rs : List (α × Input String)}
    (suffixes : ∀ r ∈ rs, r.2.symbols <:+ (tokens pieces).symbols) :
    ∃ parses : List (α × List Piece), (∀ parse ∈ parses, parse.2 <:+ pieces) ∧
      rs = parses.map (fun parse => (parse.1, tokens parse.2)) ∧
      rs.map (fun r => (r.1, textBehind pieces r.2)) =
        parses.map fun parse => (parse.1, text parse.2) := by
  refine ⟨rs.map fun r => (r.1, remaining pieces r.2), ?_, ?_, ?_⟩
  · intro parse member
    obtain ⟨r, -, rfl⟩ := List.mem_map.mp member
    exact List.drop_suffix _ _
  · rw [List.map_map]
    refine (List.map_id rs).symm.trans (List.map_congr_left fun r member => ?_)
    exact Prod.ext rfl (tokens_remaining (suffixes r member)).symm
  · rw [List.map_map]
    rfl

end Piece

/-- The names can be told apart at the front of a text: none is empty or begins with layout, and
none is a proper prefix of another. -/
structure PrefixCode (names : String → Prop) : Prop where
  nonempty : ∀ name, names name → name ≠ ""
  visible : ∀ name, names name → BeginsOutside Alphabet.isLayout name.toList
  prefixFree : ∀ name other, names name → names other → name.toList <+: other.toList → name = other

namespace PrefixCode

open Grammar (Options)

variable {names : String → Prop} {pieces ps : List Piece} {name : String}

theorem mono {fewer : String → Prop} (code : PrefixCode names)
    (among : ∀ name, fewer name → names name) : PrefixCode fewer where
  nonempty name one := code.nonempty name (among name one)
  visible name one := code.visible name (among name one)
  prefixFree name other one two := code.prefixFree name other (among name one) (among other two)

theorem letters_ne_nil (code : PrefixCode names) (one : names name) : name.toList ≠ [] :=
  mt String.toList_eq_nil_iff.mp (code.nonempty name one)

/-- Two names that stand at the front of one text are the same. -/
theorem eq_of_append (code : PrefixCode names) {other : String} (one : names name)
    (two : names other) {rest rest' : List Char}
    (same : name.toList ++ rest = other.toList ++ rest') : name = other := by
  have front : name.toList <+: other.toList ++ rest' := ⟨rest, same⟩
  rcases List.prefix_or_prefix_of_prefix front (List.prefix_append _ _) with shorter | longer
  · exact code.prefixFree name other one two shorter
  · exact (code.prefixFree other name two one longer).symm

/-- Only its token can be stripped from a piece of text. -/
theorem strip?_text_cons (code : PrefixCode names) {piece : Piece} (token : names piece.token)
    (lexeme : names name) {o : Options} (skips : o.skipLayout = true) :
    o.strip? (Piece.text (piece :: ps)) name =
      if name = piece.token then some (Piece.text ps) else none := by
  have position : (o.position (Piece.text (piece :: ps))).symbols =
      piece.token.toList ++ (Piece.text ps).symbols := by
    have outside : BeginsOutside Alphabet.isLayout
        (piece.token.toList ++ (Piece.text ps).symbols) := by
      obtain ⟨c, cs, letters⟩ := List.exists_cons_of_ne_nil (code.letters_ne_nil token)
      have visible := code.visible _ token
      rw [letters] at visible ⊢
      exact BeginsOutside.cons_iff.mpr (BeginsOutside.cons_iff.mp visible)
    rw [Options.position, if_pos skips, Input.symbols_skipLayout, Piece.text, Input.symbols_ofList,
      List.flatMap_cons, List.append_assoc]
    exact outside.dropWhile_append (List.all_eq_true.mp piece.isLayout)
  exact Options.strip?_of_front position fun rest same => code.eq_of_append lexeme token same.symm

theorem strip?_tokens_cons (o : Options) (piece : Piece) (ps : List Piece) (name : String) :
    o.strip? (Piece.tokens (piece :: ps)) name =
      if name = piece.token then some (Piece.tokens ps) else none := by
  have position := Options.symbols_position_of_plain (Options.plain_tokens o)
    (Piece.tokens (piece :: ps))
  exact Options.strip?_of_front position fun rest same => (List.cons.inj same).1.symm

theorem stripsAlike (code : PrefixCode names) (tokens : ∀ piece ∈ pieces, names piece.token)
    (lexeme : names name) {o : Options} (skips : o.skipLayout = true) :
    o.StripsAlike (Piece.textBehind pieces) (Piece.tokens pieces) name := by
  intro y suffix
  obtain ⟨ps, behind, rfl⟩ := Piece.exists_tokens_of_suffix suffix
  rw [Piece.textBehind, Piece.remaining_tokens behind]
  cases ps with
  | nil =>
    have text : o.strip? (Piece.text []) name = none :=
      o.strip?_of_empty (code.letters_ne_nil lexeme)
    have token : o.strip? (Piece.tokens []) name = none :=
      o.strip?_of_empty (List.cons_ne_nil name [])
    rw [text, token]
    rfl
  | cons piece ps =>
    have token := tokens piece (behind.subset List.mem_cons_self)
    have later : ps <:+ pieces := (List.suffix_cons piece ps).trans behind
    rw [code.strip?_text_cons token lexeme skips, strip?_tokens_cons]
    split
    · rw [Option.map_some, Piece.textBehind, Piece.remaining_tokens later]
    · rfl

/-- The text is used up together with its tokens. -/
theorem isEmpty_text (code : PrefixCode names) (tokens : ∀ piece ∈ ps, names piece.token) :
    (Piece.text ps).isEmpty = ps.isEmpty := by
  cases ps with
  | nil => rfl
  | cons piece ps =>
    have named := code.nonempty _ (tokens piece List.mem_cons_self)
    simp [Piece.text, Input.isEmpty, named]

end PrefixCode

namespace Grammar

/-- The parses of the whole input are those that leave no piece. -/
theorem complete_map {σ : Type} {place : List Piece → Input σ}
    {parses : List (ParseTree × List Piece)}
    (ends : ∀ parse ∈ parses, (place parse.2).isEmpty = parse.2.isEmpty) :
    ((parses.map fun parse => (parse.1, place parse.2)).filter fun r => r.2.isEmpty).map Prod.fst =
      (parses.filter fun parse => parse.2.isEmpty).map Prod.fst := by
  rw [List.filter_map, List.map_map]
  exact congrArg _ (List.filter_congr ends)

/-- Text and tokens are parsed alike, whatever layout stands before the tokens. The grammar must
have no left corner cycle, and its terminals and the tokens must form a prefix code, together with
the start symbol if this is a terminal. Then the two parsers have equally many results, with equal
trees in the same order, and where one leaves the tokens of some last pieces the other one leaves
their text. All questions about the parses of the whole input have the same answers. -/
theorem text_agrees_with_tokens {g : Grammar} {pieces : List Piece} {start : Symbol}
    (acyclic : ∀ name, ¬ Relation.TransGen g.LeftCorner name name)
    (code : PrefixCode fun name => g.HasTerminal name ∨ name ∈ pieces.map Piece.token ∨
      start = .terminal name) (limit : Option Nat) :
    ∃ parses : List (ParseTree × List Piece), (∀ parse ∈ parses, parse.2 <:+ pieces) ∧
      ∀ budget, g.expansionBound (Piece.tokens pieces) ≤ budget →
        (g.startParser ⟨true, limit⟩ start).all budget (Piece.tokens pieces) =
          some (parses.map fun parse => (parse.1, Piece.tokens parse.2)) ∧
        (g.startParser ⟨true, limit⟩ start).all budget (Piece.text pieces) =
          some (parses.map fun parse => (parse.1, Piece.text parse.2)) ∧
        CompleteParses (g.startParser ⟨true, limit⟩ start) budget (Piece.tokens pieces)
          ((parses.filter fun parse => parse.2.isEmpty).map Prod.fst) ∧
        CompleteParses (g.startParser ⟨true, limit⟩ start) budget (Piece.text pieces)
          ((parses.filter fun parse => parse.2.isEmpty).map Prod.fst) := by
  have tokens : ∀ piece ∈ pieces, g.HasTerminal piece.token ∨
      piece.token ∈ pieces.map Piece.token ∨ start = .terminal piece.token :=
    fun piece member => .inr (.inl (List.mem_map_of_mem member))
  have mirrors : Mirrors (Piece.textBehind pieces) (Piece.tokens pieces)
      (g.startParser ⟨true, limit⟩ start) (g.startParser ⟨true, limit⟩ start) := by
    apply startParser_mirrors
    · exact fun name terminal => code.stripsAlike tokens (.inl terminal) rfl
    · exact fun name root => code.stripsAlike tokens (.inr (.inr root)) rfl
  have progressive : g.Progressive String := progressive_tokens_iff.mpr acyclic
  obtain ⟨rs, all⟩ :=
    progressive.exists_startParser_all ⟨true, limit⟩ start (Piece.tokens pieces)
  have suffixes := (startParser_suffixSafe g ⟨true, limit⟩ start).all (all _ (Nat.le_refl _))
  obtain ⟨parses, parts, rfl, on_text⟩ := Piece.exists_parses suffixes
  have whole : Piece.textBehind pieces (Piece.tokens pieces) = Piece.text pieces := by
    rw [Piece.textBehind, Piece.remaining_tokens List.suffix_rfl]
  refine ⟨parses, parts, fun budget enough => ?_⟩
  have token_results := all budget enough
  have text_results := mirrors.all token_results
  rw [whole, on_text] at text_results
  have token_parses := Parser.completeParses_of_all token_results
  have text_parses := Parser.completeParses_of_all text_results
  rw [complete_map fun parse _ => by cases parse.2 <;> rfl] at token_parses
  rw [complete_map fun parse member => code.isEmpty_text fun piece among =>
    tokens piece ((parts parse member).subset among)] at text_parses
  exact ⟨token_results, text_results, token_parses, text_parses⟩

theorem signedList_terminals {lexeme : String} (terminal : signedList.HasTerminal lexeme) :
    lexeme = "-" ∨ lexeme = "x" := by
  obtain ⟨name, alternatives, symbols, rule, among, member⟩ := terminal
  rw [alternatives?_signedList] at rule
  split at rule
  · obtain rfl := Option.some.inj rule
    have sign : symbols = [.terminal "-"] ∨ symbols = [] := by simpa using among
    rcases sign with rfl | rfl
    · exact .inl (by simpa using member)
    · cases member
  · split at rule
    · obtain rfl := Option.some.inj rule
      simp only [List.mem_cons, List.not_mem_nil, or_false] at among
      rcases among with rfl | rfl | rfl
      · exact .inr (by simpa using member)
      · cases member
      · simp at member
    · cases rule

/-- The pieces of the text ` -x`. -/
def signedPieces : List Piece :=
  [⟨[' '], "-", rfl⟩, ⟨[], "x", rfl⟩]

theorem signedPieces_code : PrefixCode fun name => name = "-" ∨ name = "x" where
  nonempty := by
    rintro name (rfl | rfl) <;> decide
  visible := by
    rintro name (rfl | rfl) <;> exact BeginsOutside.cons_iff.mpr (by decide)
  prefixFree := by
    rintro name other (rfl | rfl) (rfl | rfl) front
    · rfl
    · exact absurd front (by decide)
    · exact absurd front (by decide)
    · rfl

/-- The tokens `-` and `x` have two parses as a `LIST`, of both or of nothing. In the text ` -x`
they are the same two, and the second one leaves the whole text with the layout at its front. -/
theorem signedList_agrees :
    ∃ parses : List (ParseTree × List Piece),
      (signedList.startParser ⟨true, some 2⟩ (.nonterminal "LIST")).all 9
        (Input.ofList ["-", "x"]) =
          some (parses.map fun parse => (parse.1, Piece.tokens parse.2)) ∧
      (signedList.startParser ⟨true, some 2⟩ (.nonterminal "LIST")).all 9
        (Input.ofString " -x") = some (parses.map fun parse => (parse.1, Piece.text parse.2)) ∧
      parses.map (fun parse => (parse.1.leaves, (Piece.text parse.2).symbols)) =
        [(["-", "x"], []), ([], [' ', '-', 'x'])] := by
  have code : PrefixCode fun name => signedList.HasTerminal name ∨
      name ∈ signedPieces.map Piece.token ∨ Symbol.nonterminal "LIST" = .terminal name := by
    refine signedPieces_code.mono ?_
    rintro name (terminal | token | root)
    · exact signedList_terminals terminal
    · simpa [signedPieces] using token
    · cases root
  obtain ⟨parses, -, answers⟩ :=
    text_agrees_with_tokens signedList_progressive.acyclic code (some 2)
  obtain ⟨on_tokens, on_text, -, -⟩ := answers 9 (by decide)
  have evaluated : ((signedList.startParser ⟨true, some 2⟩ (.nonterminal "LIST")).all 9
      (Piece.text signedPieces)).map (List.map fun r => (r.1.leaves, r.2.symbols)) =
        some [(["-", "x"], []), ([], [' ', '-', 'x'])] := by decide +kernel
  rw [on_text] at evaluated
  exact ⟨parses, on_tokens, on_text, by simpa [Function.comp_def] using evaluated⟩

/-- The grammar of `S ::= ab .` -/
def abOnly : Grammar :=
  singleton "S" [[.terminal "ab"]]

/-- A start symbol that is a terminal must belong to the prefix code. The terminal `a`, which the
grammar does not have, is a proper prefix of the token `ab`: it is read from the text but is not the
token. -/
theorem foreign_terminal_differs :
    (∀ name, ¬ Relation.TransGen abOnly.LeftCorner name name) ∧
    PrefixCode (fun name => abOnly.HasTerminal name ∨
      name ∈ [(⟨[], "ab", rfl⟩ : Piece)].map Piece.token) ∧
    ∀ budget,
      (abOnly.startParser ⟨true, none⟩ (.terminal "a")).all budget
        (Piece.text [⟨[], "ab", rfl⟩]) = some [(.terminal "a", .ofString "b")] ∧
      (abOnly.startParser ⟨true, none⟩ (.terminal "a")).all budget
        (Piece.tokens [⟨[], "ab", rfl⟩]) = some [] := by
  have rule : ∀ name, abOnly.alternatives? name =
      if name = "S" then some [[.terminal "ab"]] else none := by
    intro name
    simp [abOnly, singleton, alternatives?_addRule]
  refine ⟨?acyclic, ?code, ?results⟩
  case acyclic =>
    have progressive : abOnly.Progressive Char := by
      refine .of_rank (fun _ => 0) ?_
      intro name alternatives found
      rw [rule] at found
      split at found
      · obtain rfl := Option.some.inj found
        simp [leading, Symbol.isTerminal, Alphabet.spell]
      · cases found
    exact progressive.acyclic
  case code =>
    have one_name : PrefixCode fun name => name = "ab" := by
      constructor
      · rintro name rfl
        decide
      · rintro name rfl
        exact BeginsOutside.cons_iff.mpr (by decide)
      · rintro name other rfl rfl _
        rfl
    refine one_name.mono ?_
    rintro lexeme (⟨name, alternatives, symbols, found, among, member⟩ | token)
    · rw [rule] at found
      split at found
      · obtain rfl := Option.some.inj found
        obtain rfl : symbols = [.terminal "ab"] := by simpa using among
        simpa using member
      · cases found
    · simpa using token
  case results =>
    intro budget
    -- A terminal is the same parser at every depth.
    cases budget <;> exact ⟨rfl, rfl⟩

end Grammar

end AllParses
