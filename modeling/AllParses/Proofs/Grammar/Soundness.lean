import AllParses.Proofs.Grammar.Spelling
import AllParses.Proofs.Grammar.Tracing

/-!
# Every result is a parse

`Reads g o s d x rest` says what a result of a symbol should be: a derivation of the symbol in the
grammar whose leaves take the input down to what is left. The equivalences `reads_terminal_iff`,
`reads_nonterminal_iff` and `readsAll_concat_iff` follow the steps of the parser, one symbol at a
time from the left.

Whatever a symbol's parser holds under any budget is such a reading (`reads_of_mem`). Nothing is
asked of the grammar: its rules may be left-recursive, and nonterminals may be undefined.
-/
namespace AllParses.Grammar

section

variable {σ : Type} [Alphabet σ] [DecidableEq σ]

/-- The derivation `d` of the symbol `s` takes the input `x` down to `rest`. -/
structure Reads (g : Grammar) (o : Options) (s : Symbol) (d : Derivation) (x rest : Input σ) :
    Prop where
  symbol : d.symbol = s
  valid : d.Valid g
  spelling : o.stripAll? x d.leaves = some rest

/-- Derivations of the given symbols, one after the other, take `x` down to `rest`. -/
structure ReadsAll (g : Grammar) (o : Options) (symbols : Alternative) (ds : List Derivation)
    (x rest : Input σ) : Prop where
  symbols : ds.map Derivation.symbol = symbols
  valid : ∀ d ∈ ds, d.Valid g
  spelling : o.stripAll? x (ds.flatMap Derivation.leaves) = some rest

variable {g : Grammar} {o : Options} {x rest : Input σ}

theorem reads_terminal_iff {name : String} {d : Derivation} :
    Reads g o (.terminal name) d x rest ↔ d = .terminal name ∧ o.strip? x name = some rest := by
  constructor
  · rintro ⟨symbol, valid, spelling⟩
    cases d with
    | terminal other =>
      obtain rfl : other = name := Symbol.terminal.inj symbol
      exact ⟨rfl, by simpa using spelling⟩
    | expansion other choice children => cases symbol
  · rintro ⟨rfl, read⟩
    exact ⟨rfl, .terminal name, by simpa using read⟩

theorem reads_nonterminal_iff {name : String} {d : Derivation} :
    Reads g o (.nonterminal name) d x rest ↔
      ∃ alternatives choice symbols children, g.alternatives? name = some alternatives ∧
        alternatives[choice]? = some symbols ∧ d = .expansion name choice children ∧
        ReadsAll g o symbols children x rest := by
  constructor
  · rintro ⟨symbol, valid, spelling⟩
    cases valid with
    | terminal other => cases symbol
    | @expansion other alternatives choice children rule chosen each =>
      obtain rfl : other = name := Symbol.nonterminal.inj symbol
      rw [Derivation.leaves_expansion] at spelling
      exact ⟨alternatives, choice, _, children, rule, chosen, rfl, rfl, each, spelling⟩
  · rintro ⟨alternatives, choice, symbols, children, rule, chosen, rfl, reads⟩
    rw [← reads.symbols] at chosen
    refine ⟨rfl, .expansion rule chosen reads.valid, ?_⟩
    rw [Derivation.leaves_expansion]
    exact reads.spelling

theorem readsAll_nil_iff {ds : List Derivation} :
    ReadsAll g o [] ds x rest ↔ ds = [] ∧ x = rest := by
  constructor
  · rintro ⟨symbols, -, spelling⟩
    obtain rfl := List.map_eq_nil_iff.mp symbols
    exact ⟨rfl, Option.some.inj spelling⟩
  · rintro ⟨rfl, rfl⟩
    exact ⟨rfl, by simp, rfl⟩

theorem readsAll_concat_iff {symbols : Alternative} {s : Symbol} {ds : List Derivation} :
    ReadsAll g o (symbols ++ [s]) ds x rest ↔
      ∃ front last mid, ds = front ++ [last] ∧ ReadsAll g o symbols front x mid ∧
        Reads g o s last mid rest := by
  constructor
  · rintro ⟨labels, valid, spelling⟩
    obtain ⟨front, tail, rfl, front_labels, tail_labels⟩ := List.map_eq_append_iff.mp labels
    obtain ⟨last, rfl, last_label⟩ := List.map_eq_singleton_iff.mp tail_labels
    rw [List.flatMap_append, List.flatMap_singleton, Options.stripAll?_append] at spelling
    obtain ⟨mid, before, after⟩ := Option.bind_eq_some_iff.mp spelling
    refine ⟨front, last, mid, rfl, ⟨front_labels, ?_, before⟩, ⟨last_label, ?_, after⟩⟩
    · exact fun d member => valid d (List.mem_append_left _ member)
    · exact valid last (by simp)
  · rintro ⟨front, last, mid, rfl, before, after⟩
    refine ⟨?_, ?_, ?_⟩
    · rw [List.map_append, before.symbols, List.map_singleton, after.symbol]
    · intro d member
      rcases List.mem_append.mp member with early | late
      · exact before.valid d early
      · rw [List.mem_singleton.mp late]
        exact after.valid
    · rw [List.flatMap_append, List.flatMap_singleton, Options.stripAll?_append, before.spelling]
      exact after.spelling

/-- If the symbols' results are readings, then so are those of a sequence of symbols. -/
theorem readsAll_of_mem_sequenceOf {p : Symbol → Parser σ Derivation} {budget : Nat}
    (sound : ∀ s x d rest, (d, rest) ∈ ((p s).run budget x).items → Reads g o s d x rest)
    {symbols : Alternative} {ds : List Derivation}
    (member : (ds, rest) ∈ ((sequenceOf p symbols).run budget x).items) :
    ReadsAll g o symbols ds x rest := by
  induction symbols using List.reverseRecOn generalizing ds rest with
  | nil =>
    have only : ds = [] ∧ rest = x := by simpa using member
    exact readsAll_nil_iff.mpr ⟨only.1, only.2.symm⟩
  | append_singleton symbols s ih =>
    obtain ⟨front, last, mid, rfl, before, after⟩ := exists_of_mem_sequenceOf_concat member
    exact readsAll_concat_iff.mpr ⟨front, last, mid, rfl, ih before, sound s mid last rest after⟩

theorem mem_items_terminalParser {name : String} {budget : Nat} {d : Derivation} :
    (d, rest) ∈ (((terminalParser o name).map fun _ => Derivation.terminal name).run
        budget x).items ↔
      d = .terminal name ∧ o.strip? x name = some rest := by
  rw [Parser.run_map, run_terminalParser]
  cases o.strip? x name with
  | none => simp [Results.ofOption, Results.map]
  | some found => simp [Results.ofOption, eq_comm]

/-- Whatever is held under a bounded depth of expansions is a reading. The induction is on the
depth, so no property of the grammar is needed. -/
theorem reads_of_mem_within {depth budget : Nat} {s : Symbol} {d : Derivation}
    (member : (d, rest) ∈ ((g.derivationWithin o depth s).run budget x).items) :
    Reads g o s d x rest := by
  induction depth, s using depth_induction generalizing d x rest with
  | terminal depth name =>
    rw [derivationWithin_terminal] at member
    exact reads_terminal_iff.mpr (mem_items_terminalParser.mp member)
  | cut name => simp [derivationWithin] at member
  | expand depth name ih =>
    rw [derivationWithin] at member
    cases rule : g.alternatives? name with
    | none => simp [rule] at member
    | some alternatives =>
      simp only [rule] at member
      obtain ⟨choice, symbols, children, chosen, rfl, inside⟩ := exists_of_mem_expansionOf member
      have below : ReadsAll g o symbols children x rest :=
        readsAll_of_mem_sequenceOf (fun s _ _ _ result => ih s result) inside
      exact reads_nonterminal_iff.mpr
        ⟨alternatives, choice, symbols, children, rule, chosen, rfl, below⟩

theorem reads_of_mem {budget : Nat} {s : Symbol} {d : Derivation}
    (member : (d, rest) ∈ ((g.derivationParser o s).run budget x).items) : Reads g o s d x rest :=
  reads_of_mem_within member

/-- The tree of a result, with what it says about the input that was consumed. -/
theorem conforms_of_mem_symbolParser {budget : Nat} {s : Symbol} {t : ParseTree}
    (member : (t, rest) ∈ ((g.symbolParser o s).run budget x).items) :
    t.label = s ∧ t.Conforms g ∧ o.stripAll? x t.leaves = some rest := by
  rw [symbolParser_eq_map] at member
  obtain ⟨d, result, rfl⟩ := Parser.mem_items_map.mp member
  have reads := reads_of_mem result
  exact ⟨(Derivation.label_tree d).trans reads.symbol, reads.valid.conforms, reads.spelling⟩

end

/-- Every result of a symbol is a parse of what it consumed. The tree has the symbol at its root
and conforms to the grammar. On tokens, and on text whose layout is not skipped, the input is the
leaves followed by what is left. On text whose layout is skipped, stripping the leaves one by one
leads from the input to what is left, and what is dropped before them is layout. -/
theorem symbolParser_sound (g : Grammar) (o : Options) (s : Symbol) (budget : Nat) :
    (∀ (x : Input String) (t : ParseTree) (rest : Input String),
      (t, rest) ∈ ((g.symbolParser o s).run budget x).items →
        t.label = s ∧ t.Conforms g ∧ x.symbols = t.leaves ++ rest.symbols) ∧
    (∀ (x : Input Char) (t : ParseTree) (rest : Input Char),
      (t, rest) ∈ ((g.symbolParser o s).run budget x).items →
        t.label = s ∧ t.Conforms g ∧ o.stripAll? x t.leaves = some rest ∧
        (o.skipLayout = false → x.symbols = t.leaves.flatMap String.toList ++ rest.symbols) ∧
        (o.skipLayout = true → ∃ gaps : List (List Char), gaps.length = t.leaves.length ∧
          (∀ gap ∈ gaps, ∀ c ∈ gap, Unicode.isWhiteSpace c = true) ∧
          x.symbols = ((gaps.zip t.leaves).flatMap fun (gap, name) => gap ++ name.toList) ++
            rest.symbols)) := by
  constructor
  · intro x t rest member
    obtain ⟨label, conforms, spelling⟩ := conforms_of_mem_symbolParser member
    have spelt := (Options.stripAll?_eq_some_iff_of_plain o.plain_tokens).mp spelling
    rw [Options.flatMap_spell_tokens] at spelt
    exact ⟨label, conforms, spelt⟩
  · intro x t rest member
    obtain ⟨label, conforms, spelling⟩ := conforms_of_mem_symbolParser member
    refine ⟨label, conforms, spelling, ?_, fun _ => Options.gaps_of_stripAll? spelling⟩
    intro off
    exact (Options.stripAll?_eq_some_iff_of_plain (.inl off)).mp spelling

/-- Lists of `x` with an optional sign before each. The sign may be left out in two equal ways, and
one alternative mentions a nonterminal without a rule. -/
def signedList : Grammar :=
  .ofRules [
    ("LIST", [[.nonterminal "SIGN", .terminal "x", .nonterminal "LIST"], [],
      [.nonterminal "MISSING"]]),
    ("SIGN", [[.terminal "-"], [], []])]

/-- In ` - xx` the layout before the sign and before the first `x` is dropped, and the sign before
the second `x` is left out. -/
theorem signedList_sound :
    ∃ t rest, (t, rest) ∈ ((signedList.symbolParser {} (.nonterminal "LIST")).run 4
        (Input.ofString " - xx")).items ∧
      t = .nonterminal "LIST" [.nonterminal "SIGN" [.terminal "-"], .terminal "x",
        .nonterminal "LIST" [.nonterminal "SIGN" [], .terminal "x", .nonterminal "LIST" []]] ∧
      t.label = .nonterminal "LIST" ∧ t.Conforms signedList ∧
      ({} : Options).stripAll? (Input.ofString " - xx") t.leaves = some rest := by
  have found : (ParseTree.nonterminal "LIST" [.nonterminal "SIGN" [.terminal "-"], .terminal "x",
      .nonterminal "LIST" [.nonterminal "SIGN" [], .terminal "x", .nonterminal "LIST" []]],
      Input.ofString "") ∈ ((signedList.symbolParser {} (.nonterminal "LIST")).run 4
        (Input.ofString " - xx")).items := List.mem_cons_self
  have sound := (symbolParser_sound signedList {} (.nonterminal "LIST") 4).2 _ _ _ found
  exact ⟨_, _, found, rfl, sound.1, sound.2.1, sound.2.2.1⟩

end AllParses.Grammar
