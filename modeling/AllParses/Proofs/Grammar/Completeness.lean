import AllParses.Proofs.Grammar.Termination

/-!
# Progressive grammars are parsed completely

The parts meet here. A progressive grammar finishes on every input, a finished result set holds
exactly the readings in the order of their choices, and forgetting the choices gives the trees.

* No conforming tree whose leaves the input starts with is lost, for a symbol, an alternative or
  several alternatives.
* The results of a symbol are its derivations, each once, in the lexicographic order of the chosen
  alternatives; a bound on the results of the start symbol cuts this sequence and nothing else.
-/
namespace AllParses.Grammar

variable {σ : Type} [Alphabet σ] [DecidableEq σ]
variable {g : Grammar} {o : Options} {x rest : Input σ}

/-- A conforming tree is that of a reading. -/
theorem exists_reads {s : Symbol} {t : ParseTree} (label : t.label = s) (conforms : t.Conforms g)
    (spelling : o.stripAll? x t.leaves = some rest) :
    ∃ d : Derivation, d.tree = t ∧ Reads g o s d x rest := by
  obtain ⟨d, valid, rfl⟩ := Derivation.conforms_iff_exists_valid.mp conforms
  exact ⟨d, rfl, (Derivation.label_tree d).symm.trans label, valid, spelling⟩

theorem exists_readsAll {symbols : Alternative} {ts : List ParseTree}
    (labels : ts.map ParseTree.label = symbols) (conforms : ∀ t ∈ ts, t.Conforms g)
    (spelling : o.stripAll? x (ParseTree.leavesAll ts) = some rest) :
    ∃ ds : List Derivation, ds.map Derivation.tree = ts ∧ ReadsAll g o symbols ds x rest := by
  obtain ⟨ds, valid, rfl⟩ := Derivation.exists_valid_of_forall fun t member =>
    Derivation.conforms_iff_exists_valid.mp (conforms t member)
  refine ⟨ds, rfl, ?_, valid, ?_⟩
  · rw [← labels, Derivation.labels_trees]
  · rw [ParseTree.leavesAll_eq_flatMap, List.flatMap_map] at spelling
    exact spelling

/-- Under a progressive grammar every parse is found. A tree whose root is the symbol, which
conforms to the grammar and whose leaves take the input down to `rest`, is a result of the symbol
with that rest; likewise for the trees of an alternative, and of one of several alternatives. -/
theorem parsers_complete (progressive : g.Progressive σ) (o : Options) (x : Input σ) (budget : Nat)
    (enough : g.expansionBound x ≤ budget) :
    (∀ (s : Symbol) (t : ParseTree) (rest : Input σ), t.label = s → t.Conforms g →
      o.stripAll? x t.leaves = some rest →
        (t, rest) ∈ ((g.symbolParser o s).run budget x).items) ∧
    (∀ (symbols : Alternative) (ts : List ParseTree) (rest : Input σ),
      ts.map ParseTree.label = symbols → (∀ t ∈ ts, t.Conforms g) →
      o.stripAll? x (ParseTree.leavesAll ts) = some rest →
        (ts, rest) ∈ ((g.alternativeParser o symbols).run budget x).items) ∧
    (∀ (alternatives : List Alternative) (symbols : Alternative) (ts : List ParseTree)
      (rest : Input σ), symbols ∈ alternatives →
      ts.map ParseTree.label = symbols → (∀ t ∈ ts, t.Conforms g) →
      o.stripAll? x (ParseTree.leavesAll ts) = some rest →
        (ts, rest) ∈ ((g.alternativesParser o alternatives).run budget x).items) := by
  refine ⟨?_, ?_, ?_⟩
  · intro s t rest label conforms spelling
    obtain ⟨d, rfl, reads⟩ := exists_reads label conforms spelling
    have finished := progressive.finished_derivationParser (o := o) enough s
    have member := (mem_items_iff_reads finished).mpr reads
    rw [symbolParser_eq_map]
    exact Parser.mem_items_map.mpr ⟨d, member, rfl⟩
  · intro symbols ts rest labels conforms spelling
    obtain ⟨ds, rfl, reads⟩ := exists_readsAll labels conforms spelling
    have finished := progressive.finished_sequence (o := o) enough symbols
    have member := mem_sequenceOf_of_reads
      (fun _ _ _ _ done => (mem_items_iff_reads done).mpr) finished reads
    rw [alternativeParser_eq_map]
    exact Parser.mem_items_map.mpr ⟨ds, member, rfl⟩
  · intro alternatives symbols ts rest among labels conforms spelling
    obtain ⟨ds, rfl, reads⟩ := exists_readsAll labels conforms spelling
    have finished := progressive.finished_choice (o := o) enough alternatives
    have member := mem_choiceOf_of_reads finished among reads
    rw [alternativesParser_eq_map]
    exact Parser.mem_items_map.mpr ⟨ds, member, rfl⟩

/-- Of ` -x`, the list with its sign and its element, the element behind the sign, and the list
that derives nothing. -/
theorem signedList_complete :
    (ParseTree.nonterminal "LIST" [.nonterminal "SIGN" [.terminal "-"], .terminal "x",
        .nonterminal "LIST" []], Input.ofString "") ∈
      ((signedList.symbolParser {} (.nonterminal "LIST")).run 12 (Input.ofString " -x")).items ∧
    ([ParseTree.nonterminal "SIGN" [.terminal "-"], .terminal "x"], Input.ofString "") ∈
      ((signedList.alternativeParser {} [.nonterminal "SIGN", .terminal "x"]).run 12
        (Input.ofString " -x")).items ∧
    ([ParseTree.nonterminal "LIST" []], Input.ofString " -x") ∈
      ((signedList.alternativesParser {} [[.nonterminal "MISSING"], [.nonterminal "LIST"]]).run 12
        (Input.ofString " -x")).items := by
  have sign : signedList.alternatives? "SIGN" = some [[.terminal "-"], [], []] := rfl
  have list : signedList.alternatives? "LIST" = some
    [[.nonterminal "SIGN", .terminal "x", .nonterminal "LIST"], [], [.nonterminal "MISSING"]] := rfl
  have element : ParseTree.Conforms signedList (.terminal "x") := .terminal "x"
  have minus : ParseTree.Conforms signedList (.nonterminal "SIGN" [.terminal "-"]) :=
    .nonterminal sign (by decide) (by simpa using .terminal "-")
  have nothing : ParseTree.Conforms signedList (.nonterminal "LIST" []) :=
    .nonterminal list (by decide) (by simp)
  obtain ⟨symbols, sequences, choices⟩ :=
    parsers_complete signedList_progressive {} (Input.ofString " -x") 12 (by decide)
  refine ⟨symbols _ _ _ rfl ?_ rfl, sequences _ _ _ rfl ?_ rfl, ?_⟩
  · exact .nonterminal list (by decide) (by simp [minus, element, nothing])
  · simp [minus, element]
  · exact choices _ [.nonterminal "LIST"] _ _ (by decide) rfl (by simp [nothing]) rfl

/-- The results of a symbol of a progressive grammar are its derivations whose leaves the input
starts with, each exactly once, with what they leave. They are in strictly increasing
lexicographic order of the chosen alternatives, so where two of them first differ the one with the
alternative that was declared earlier comes first. The start symbol has the same results, and with
a bound the first ones of them; expansions within a parse are not bounded. -/
theorem symbolParser_enumerates (progressive : g.Progressive σ) (o : Options) (s : Symbol)
    (x : Input σ) (budget : Nat) (enough : g.expansionBound x ≤ budget) :
    ∃ parses : List (Derivation × Input σ),
      (∀ d rest, (d, rest) ∈ parses ↔
        d.symbol = s ∧ d.Valid g ∧ o.stripAll? x d.leaves = some rest) ∧
      parses.Pairwise (fun a b => a.1.choices < b.1.choices) ∧
      (parses.map Prod.fst).Nodup ∧
      ((g.symbolParser o s).run budget x).toList? =
        some (parses.map fun (d, rest) => (d.tree, rest)) ∧
      ((g.startParser o s).run budget x).toList? =
        some (match o.maxResults with
          | some n => (parses.map fun (d, rest) => (d.tree, rest)).take n
          | none => parses.map fun (d, rest) => (d.tree, rest)) := by
  have finished := progressive.finished_derivationParser (o := o) enough s
  have ordered := List.Pairwise.imp (fun before => before.lt) (ordered_derivationParser finished)
  have all : ((g.symbolParser o s).run budget x).toList? =
      some (((g.derivationParser o s).run budget x).items.map fun (d, rest) =>
        (d.tree, rest)) := by
    rw [symbolParser_eq_map, Parser.run_map, Results.toList?_eq_some_iff, Results.finished_map,
      Results.items_map]
    exact ⟨finished, rfl⟩
  refine ⟨((g.derivationParser o s).run budget x).items, ?_, ordered, ?_, all, ?_⟩
  · intro d rest
    rw [mem_items_iff_reads finished]
    exact ⟨fun reads => ⟨reads.symbol, reads.valid, reads.spelling⟩,
      fun ⟨symbol, valid, spelling⟩ => ⟨symbol, valid, spelling⟩⟩
  · refine List.pairwise_map.mpr (ordered.imp ?_)
    intro a b before same
    rw [same] at before
    exact List.lt_irrefl _ before
  · unfold startParser
    cases o.maxResults with
    | none => exact all
    | some n => exact Parser.toList?_run_limit n all

/-- Three derivations of `x`: the sign is left out in two ways, or nothing is derived at all. The
start symbol with a bound of two has the first two of them, though the list within the list is
expanded to its second alternative. -/
theorem signedList_enumerates :
    ∃ parses : List (Derivation × Input Char), parses.length = 3 ∧
      parses.Pairwise (fun a b => a.1.choices < b.1.choices) ∧
      ((signedList.startParser ⟨true, some 2⟩ (.nonterminal "LIST")).run 100
        (Input.ofString "x")).toList? =
          some ((parses.map fun (d, rest) => (d.tree, rest)).take 2) := by
  obtain ⟨parses, -, ordered, -, all, start⟩ :=
    symbolParser_enumerates signedList_progressive ⟨true, some 2⟩ (.nonterminal "LIST")
      (Input.ofString "x") 100 (by decide)
  refine ⟨parses, ?_, ordered, start⟩
  have count : (((signedList.symbolParser ⟨true, some 2⟩ (.nonterminal "LIST")).run 100
      (Input.ofString "x")).toList?.map List.length) = some 3 := rfl
  rw [all] at count
  simpa using count

end AllParses.Grammar
