import AllParses.Proofs.Grammar.Soundness

/-!
# A finished result set holds every parse, in order

Soundness holds at every budget. The converse needs one more fact, that the budget sufficed: if
the result set of a symbol is finished, then every reading is in it (`mem_items_iff_reads`), and
the results come in the order of their choices (`ordered_derivationParser`). Neither statement
asks anything of the grammar, so what remains to be shown for a grammar is that it finishes.

Both inductions go along the parser: over the symbols of an alternative from the left, then over
the alternatives of a nonterminal, then over the depth of expansions. A finished whole has finished
parts, which carries the premise down.
-/
namespace AllParses.Grammar

section

variable {σ α : Type}

/-- A sequence is finished when its beginning is, and its last symbol is wherever that led. -/
theorem finished_sequenceOf_concat {p : Symbol → Parser σ α} {symbols : Alternative} {s : Symbol}
    {budget : Nat} {x : Input σ} :
    ((sequenceOf p (symbols ++ [s])).run budget x).finished = true ↔
      ((sequenceOf p symbols).run budget x).finished = true ∧
        ∀ vs mid, (vs, mid) ∈ ((sequenceOf p symbols).run budget x).items →
          ((p s).run budget mid).finished = true := by
  rw [run_sequenceOf_concat, Results.finished_flatMap, Bool.and_eq_true, List.all_eq_true]
  refine and_congr_right fun _ => ?_
  constructor
  · intro each vs mid member
    simpa using each (vs, mid) member
  · rintro each ⟨vs, mid⟩ member
    simpa using each vs mid member

theorem items_sequenceOf_concat {p : Symbol → Parser σ α} {symbols : Alternative} {s : Symbol}
    {budget : Nat} {x : Input σ}
    (finished : ((sequenceOf p (symbols ++ [s])).run budget x).finished = true) :
    ((sequenceOf p (symbols ++ [s])).run budget x).items =
      ((sequenceOf p symbols).run budget x).items.flatMap fun (vs, mid) =>
        ((p s).run budget mid).items.map fun (v, rest) => (vs ++ [v], rest) := by
  have last := (finished_sequenceOf_concat.mp finished).2
  rw [run_sequenceOf_concat, Results.items_flatMap_of_finished]
  · simp only [Results.items_map]
  · rintro ⟨vs, mid⟩ member
    simpa using last vs mid member

theorem finished_expansionOf {p : Symbol → Parser σ Derivation} {name : String}
    {alternatives : List Alternative} {budget : Nat} {x : Input σ} :
    ((expansionOf p name alternatives).run budget x).finished = true ↔
      ∀ symbols ∈ alternatives, ((sequenceOf p symbols).run budget x).finished = true := by
  rw [expansionOf, Parser.finished_anyOf]
  constructor
  · intro each symbols member
    obtain ⟨choice, bound, rfl⟩ := List.mem_iff_getElem.mp member
    simpa using each _ (List.mem_mapIdx.mpr ⟨choice, bound, rfl⟩)
  · intro each q among
    obtain ⟨choice, bound, rfl⟩ := List.mem_mapIdx.mp among
    simpa using each _ (List.getElem_mem bound)

/-- In a finished expansion no result of an alternative is lost. -/
theorem mem_expansionOf_of_chosen {p : Symbol → Parser σ Derivation} {name : String}
    {alternatives : List Alternative} {budget choice : Nat} {symbols : Alternative}
    {children : List Derivation} {x rest : Input σ}
    (finished : ((expansionOf p name alternatives).run budget x).finished = true)
    (chosen : alternatives[choice]? = some symbols)
    (inside : (children, rest) ∈ ((sequenceOf p symbols).run budget x).items) :
    (.expansion name choice children, rest) ∈
      ((expansionOf p name alternatives).run budget x).items := by
  obtain ⟨bound, rfl⟩ := List.getElem?_eq_some_iff.mp chosen
  rw [expansionOf] at finished ⊢
  rw [Parser.items_anyOf finished, List.mem_flatMap]
  refine ⟨_, List.mem_mapIdx.mpr ⟨choice, bound, rfl⟩, ?_⟩
  exact Parser.mem_items_map.mpr ⟨children, inside, rfl⟩

/-- Each result comes before all that follow it in the order of their choices. -/
def InOrder (choicesOf : α → List Nat) (results : List (α × Input σ)) : Prop :=
  results.Pairwise fun a b => Derivation.Precedes (choicesOf a.1) (choicesOf b.1)

/-- The order of the choices is the order of a sequence's results. Two results that share the
derivations of the first symbols differ in the last one; any others differ before it, and then the
choices that follow do not matter. -/
theorem ordered_sequenceOf {p : Symbol → Parser σ Derivation} {budget : Nat} {x : Input σ}
    (ordered : ∀ s x, ((p s).run budget x).finished = true →
      InOrder Derivation.choices ((p s).run budget x).items)
    {symbols : Alternative} (finished : ((sequenceOf p symbols).run budget x).finished = true) :
    InOrder Derivation.choicesAll ((sequenceOf p symbols).run budget x).items := by
  have choices_concat : ∀ (front : List Derivation) (last : Derivation),
      Derivation.choicesAll (front ++ [last]) =
        Derivation.choicesAll front ++ last.choices := by
    intro front last
    simp only [Derivation.choicesAll_eq_flatMap, List.flatMap_append, List.flatMap_singleton]
  induction symbols using List.reverseRecOn with
  | nil => exact List.pairwise_singleton _ _
  | append_singleton symbols s ih =>
    have parts := finished_sequenceOf_concat.mp finished
    rw [InOrder, items_sequenceOf_concat finished, List.pairwise_flatMap]
    constructor
    · rintro ⟨front, mid⟩ member
      rw [List.pairwise_map]
      refine (ordered s mid (parts.2 front mid member)).imp ?_
      intro a b before
      rw [choices_concat, choices_concat]
      exact before.append_left _
    · refine (ih parts.1).imp ?_
      intro a b before c inside d inside'
      obtain ⟨last, -, rfl⟩ := List.mem_map.mp inside
      obtain ⟨last', -, rfl⟩ := List.mem_map.mp inside'
      rw [choices_concat, choices_concat]
      exact before.append_right _ _

/-- The results of an earlier alternative come first, and those of one alternative are ordered by the
choices below it. -/
theorem ordered_expansionOf {p : Symbol → Parser σ Derivation} {name : String}
    {alternatives : List Alternative} {budget : Nat} {x : Input σ}
    (ordered : ∀ s x, ((p s).run budget x).finished = true →
      InOrder Derivation.choices ((p s).run budget x).items)
    (finished : ((expansionOf p name alternatives).run budget x).finished = true) :
    InOrder Derivation.choices ((expansionOf p name alternatives).run budget x).items := by
  have parts := finished_expansionOf.mp finished
  rw [expansionOf] at finished ⊢
  rw [InOrder, Parser.items_anyOf finished, List.pairwise_flatMap]
  constructor
  · intro q among
    obtain ⟨choice, bound, rfl⟩ := List.mem_mapIdx.mp among
    rw [Parser.run_map, Results.items_map, List.pairwise_map]
    refine (ordered_sequenceOf ordered (parts _ (List.getElem_mem bound))).imp ?_
    intro a b before
    exact .tail choice before
  · rw [List.pairwise_iff_getElem]
    intro i j _ _ earlier a inside b inside'
    simp only [List.getElem_mapIdx, Parser.run_map, Results.items_map] at inside inside'
    obtain ⟨children, -, rfl⟩ := List.mem_map.mp inside
    obtain ⟨children', -, rfl⟩ := List.mem_map.mp inside'
    exact .head earlier _ _

end

variable {σ : Type} [Alphabet σ] [DecidableEq σ]
variable {g : Grammar} {o : Options} {x rest : Input σ}

/-- If every reading is found where a symbol's parser finishes, then the same holds for a sequence
of symbols. -/
theorem mem_sequenceOf_of_reads {p : Symbol → Parser σ Derivation} {budget : Nat}
    (complete : ∀ s x d rest, ((p s).run budget x).finished = true → Reads g o s d x rest →
      (d, rest) ∈ ((p s).run budget x).items)
    {symbols : Alternative} {ds : List Derivation}
    (finished : ((sequenceOf p symbols).run budget x).finished = true)
    (reads : ReadsAll g o symbols ds x rest) :
    (ds, rest) ∈ ((sequenceOf p symbols).run budget x).items := by
  induction symbols using List.reverseRecOn generalizing ds rest with
  | nil =>
    obtain ⟨rfl, rfl⟩ := readsAll_nil_iff.mp reads
    simp
  | append_singleton symbols s ih =>
    obtain ⟨front, last, mid, rfl, before, after⟩ := readsAll_concat_iff.mp reads
    have parts := finished_sequenceOf_concat.mp finished
    have first := ih parts.1 before
    have second := complete s mid last rest (parts.2 front mid first) after
    rw [items_sequenceOf_concat finished]
    exact List.mem_flatMap.mpr ⟨(front, mid), first, List.mem_map.mpr ⟨(last, rest), second, rfl⟩⟩

theorem mem_within_of_reads {depth budget : Nat} {s : Symbol} {d : Derivation}
    (finished : ((g.derivationWithin o depth s).run budget x).finished = true)
    (reads : Reads g o s d x rest) :
    (d, rest) ∈ ((g.derivationWithin o depth s).run budget x).items := by
  induction depth, s using depth_induction generalizing d x rest with
  | terminal depth name =>
    rw [derivationWithin_terminal]
    exact mem_items_terminalParser.mpr (reads_terminal_iff.mp reads)
  | cut name => simp [derivationWithin] at finished
  | expand depth name ih =>
    obtain ⟨alternatives, choice, symbols, children, rule, chosen, rfl, below⟩ :=
      reads_nonterminal_iff.mp reads
    simp only [derivationWithin, rule] at finished ⊢
    have part := finished_expansionOf.mp finished symbols (List.mem_of_getElem? chosen)
    have inside := mem_sequenceOf_of_reads (fun s _ _ _ => ih s) part below
    exact mem_expansionOf_of_chosen finished chosen inside

/-- A finished result set holds exactly the readings. -/
theorem mem_items_iff_reads {budget : Nat} {s : Symbol} {d : Derivation}
    (finished : ((g.derivationParser o s).run budget x).finished = true) :
    (d, rest) ∈ ((g.derivationParser o s).run budget x).items ↔ Reads g o s d x rest :=
  ⟨reads_of_mem, mem_within_of_reads finished⟩

/-- A terminal has no two results that could be out of order. -/
theorem ordered_terminalParser (name : String) (budget : Nat) :
    InOrder Derivation.choices
      (((terminalParser o name).map fun _ => Derivation.terminal name).run budget x).items := by
  rw [Parser.run_map, run_terminalParser]
  cases o.strip? x name with
  | none => exact List.Pairwise.nil
  | some found => exact List.pairwise_singleton _ _

theorem ordered_derivationWithin {depth budget : Nat} {s : Symbol}
    (finished : ((g.derivationWithin o depth s).run budget x).finished = true) :
    InOrder Derivation.choices ((g.derivationWithin o depth s).run budget x).items := by
  induction depth, s using depth_induction generalizing x with
  | terminal depth name =>
    rw [derivationWithin_terminal]
    exact ordered_terminalParser name budget
  | cut name => simp [derivationWithin] at finished
  | expand depth name ih =>
    rw [derivationWithin] at finished ⊢
    cases rule : g.alternatives? name with
    | none => exact List.Pairwise.nil
    | some alternatives =>
      simp only [rule] at finished ⊢
      exact ordered_expansionOf (fun s _ part => ih s part) finished

/-- The results of a finished result set come in the order of their choices. -/
theorem ordered_derivationParser {budget : Nat} {s : Symbol}
    (finished : ((g.derivationParser o s).run budget x).finished = true) :
    InOrder Derivation.choices ((g.derivationParser o s).run budget x).items :=
  ordered_derivationWithin finished

/-- A finished choice between alternatives holds every reading of one of them. -/
theorem mem_choiceOf_of_reads {budget : Nat} {alternatives : List Alternative}
    {symbols : Alternative} {ds : List Derivation}
    (finished : ((choiceOf (g.derivationParser o) alternatives).run budget x).finished = true)
    (among : symbols ∈ alternatives) (reads : ReadsAll g o symbols ds x rest) :
    (ds, rest) ∈ ((choiceOf (g.derivationParser o) alternatives).run budget x).items := by
  rw [choiceOf] at finished ⊢
  have member := List.mem_map_of_mem (f := sequenceOf (g.derivationParser (σ := σ) o)) among
  have part := (Parser.finished_anyOf _ _ _).mp finished _ member
  rw [Parser.items_anyOf finished, List.mem_flatMap]
  refine ⟨_, member, mem_sequenceOf_of_reads ?_ part reads⟩
  exact fun _ _ _ _ done => (mem_items_iff_reads done).mpr

end AllParses.Grammar
