import AllParses.Proofs.Notation.Alternatives

/-!
# Reading a rule

A rule ends behind the whole of its alternatives, and nowhere else. So it is read in one way or not
at all, and `RuleAt` says which (`ruleReader_settles_iff`).
-/
namespace AllParses

namespace Lexicon

open Grammar (Symbol Alternative Rule)

variable {l : Lexicon}

/-- One rule is read from `x` on: the name, `::=`, the alternatives as far as they go, and `.`. -/
inductive RuleAt (l : Lexicon) : Input Char → Rule → Input Char → Prop where
  | intro {x named defined stop last rest : Input Char} {name : String}
    {steps : List (Symbol × Input Char)} {alternatives : List Alternative}
    (head : l.nonterminal.Settles x.skipLayout [(name, named)])
    (defines : named.skipLayout.symbols = "::=".toList ++ defined.symbols)
    (symbols : l.symbolReader.Iterates defined steps stop)
    (further : l.FurtherAt stop alternatives last)
    (dot : last.skipLayout.symbols = '.' :: rest.symbols) :
    RuleAt l x (name, steps.map Prod.fst :: alternatives) rest

/-- The end of a rule is looked for behind the whole of its alternatives, and nowhere else. -/
theorem bodyReader_settles (sharp : l.Sharp) {x stop last : Input Char}
    {steps : List (Symbol × Input Char)} {alternatives : List Alternative}
    {dots : List (Char × Input Char)} (symbols : l.symbolReader.Iterates x steps stop)
    (further : l.FurtherAt stop alternatives last)
    (dot : (Parser.symbol '.').afterLayout.Settles last dots) :
    (l.alternativesReader.thenSkip (Parser.symbol '.').afterLayout).Settles x
      (dots.map fun r => (steps.map Prod.fst :: alternatives, r.2)) := by
  obtain ⟨rs, read, partials, rfl, go_on⟩ := alternativesReader_settles sharp symbols further
  exact read.thenSkip_first dot fun r member =>
    (Parser.symbol_refuses ((go_on r member).not_dot sharp)).afterLayout

/-- A rule is read in one way where its parts stand one after the other. -/
theorem RuleAt.settles (sharp : l.Sharp) {x rest : Input Char} {rule : Rule}
    (reads : l.RuleAt x rule rest) : l.ruleReader.Settles x [(rule, rest)] := by
  cases reads with
  | intro head defines symbols further dot =>
    have body := bodyReader_settles sharp symbols further (Parser.symbol_settles dot).afterLayout
    exact head.afterLayout.andThen_single
      ((Parser.token_settles defines).afterLayout.skipThen_single body)

theorem ruleReader_cases (sharp : l.Sharp) (x : Input Char) :
    l.ruleReader.Settles x [] ∨ ∃ rule rest, l.RuleAt x rule rest := by
  rcases sharp.nonterminal _ (Input.skipLayout_idem x) with refused | ⟨name, named, head, -⟩
  · exact .inl refused.afterLayout.andThen_nil
  by_cases marked : ∃ defined : Input Char,
      named.skipLayout.symbols = "::=".toList ++ defined.symbols
  case neg =>
    have unmarked := Parser.token_refuses fun rest front => marked ⟨rest, front⟩
    exact .inl (head.afterLayout.andThen_single unmarked.afterLayout.skipThen_nil)
  obtain ⟨defined, defines⟩ := marked
  obtain ⟨steps, stop, symbols⟩ := Parser.exists_iterates sharp.symbolReader defined
  obtain ⟨alternatives, last, further⟩ := exists_furtherAt sharp stop
  by_cases dot : last.skipLayout.head? = some '.'
  · obtain ⟨rest, dot⟩ := Input.head?_eq_some_iff.mp dot
    exact .inr ⟨_, rest, .intro head defines symbols further dot⟩
  · have body := bodyReader_settles sharp symbols further (Parser.symbol_refuses dot).afterLayout
    exact .inl (head.afterLayout.andThen_single
      ((Parser.token_settles defines).afterLayout.skipThen_single body))

/-- What is left behind a rule is shorter than the text from the rule's name on. -/
theorem RuleAt.properSuffix (sharp : l.Sharp) {x rest : Input Char} {rule : Rule}
    (reads : l.RuleAt x rule rest) : rest.ProperSuffix x.skipLayout := by
  cases reads with
  | @intro named defined stop last _ name steps alternatives head defines symbols further dot =>
    have name_consumes : named.ProperSuffix x.skipLayout := by
      rcases sharp.nonterminal _ (Input.skipLayout_idem x) with refused | ⟨other, rest, read, proper⟩
      · simpa using head.unique refused
      · obtain ⟨rfl, rfl⟩ := by simpa using head.unique read
        exact proper
    have behind_mark : defined.ProperSuffix named :=
      (Input.ProperSuffix.of_append (by decide) defines).of_skipLayout
    have dot_consumes : rest.ProperSuffix last := (Input.ProperSuffix.of_cons dot).of_skipLayout
    have body := further.suffix.trans symbols.suffix
    exact (dot_consumes.trans_suffix body).trans (behind_mark.trans name_consumes)

/-- The reader of rules settles everywhere: on the one rule that is there, or on nothing. -/
theorem ruleReader_settles_iff (sharp : l.Sharp) {x rest : Input Char} {rule : Rule} :
    l.ruleReader.Settles x [(rule, rest)] ↔ l.RuleAt x rule rest := by
  refine ⟨fun read => ?_, fun reads => reads.settles sharp⟩
  rcases ruleReader_cases sharp x with refused | ⟨rule', rest', reads⟩
  · simpa using read.unique refused
  · obtain ⟨rfl, rfl⟩ := by simpa using read.unique (reads.settles sharp)
    exact reads

theorem Sharp.ruleReader (sharp : l.Sharp) (x : Input Char) : l.ruleReader.SharpAt x := by
  rcases ruleReader_cases sharp x with refused | ⟨rule, rest, reads⟩
  · exact .inl refused
  · exact .inr ⟨rule, rest, reads.settles sharp, (reads.properSuffix sharp).of_skipLayout⟩

end Lexicon

end AllParses
