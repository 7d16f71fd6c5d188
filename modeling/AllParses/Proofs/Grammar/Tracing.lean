import AllParses.Proofs.Grammar.Derivation
import AllParses.Proofs.Results
import Mathlib.Data.List.Induction

/-!
# Parsing with the choices recorded

`derivationParser` is the parser of a symbol that keeps derivations where `symbolParser` keeps
trees. Forgetting the choices turns one into the other (`symbolParser_eq_map`), so what a symbol
can give, whether anything is missing, and in which order it comes are all asked of derivations.

The symbols of an alternative are parsed from the left, each result of the symbols before being
carried on by the next symbol (`run_sequenceOf_concat`).
-/
namespace AllParses.Grammar

section

variable {σ α β : Type}

/-- One more symbol at the end of an alternative. -/
theorem sequenceOf_concat (p : Symbol → Parser σ α) (symbols : Alternative) (s : Symbol) :
    sequenceOf p (symbols ++ [s]) =
      ((sequenceOf p symbols).andThen (p s)).map fun r => r.1 ++ [r.2] := by
  simp only [sequenceOf, List.foldl_append, List.foldl_cons, List.foldl_nil]

theorem run_sequenceOf_concat (p : Symbol → Parser σ α) (symbols : Alternative) (s : Symbol)
    (budget : Nat) (x : Input σ) :
    (sequenceOf p (symbols ++ [s])).run budget x =
      ((sequenceOf p symbols).run budget x).flatMap fun (vs, mid) =>
        ((p s).run budget mid).map fun (v, rest) => (vs ++ [v], rest) := by
  rw [sequenceOf_concat, Parser.run_map, Parser.run_andThen, Results.map_flatMap]
  congr 1
  funext r
  exact Results.map_map _ _ _

@[simp] theorem run_sequenceOf_nil (p : Symbol → Parser σ α) (budget : Nat) (x : Input σ) :
    (sequenceOf p []).run budget x = .single ([], x) := rfl

/-- A sequence begins with the empty one, so its call comes back, whatever the symbols are. -/
theorem starts_sequenceOf (p : Symbol → Parser σ α) (symbols : Alternative) (budget : Nat)
    (x : Input σ) : (sequenceOf p symbols).starts budget x = true := by
  induction symbols using List.reverseRecOn with
  | nil => rfl
  | append_singleton symbols s ih =>
    rw [sequenceOf_concat]
    exact ih

theorem starts_choiceOf (p : Symbol → Parser σ α) (alternatives : List Alternative) (budget : Nat)
    (x : Input σ) : (choiceOf p alternatives).starts budget x = true := by
  cases alternatives with
  | nil => rfl
  | cons symbols alternatives =>
    rw [choiceOf, List.map_cons, Parser.anyOf_cons]
    exact starts_sequenceOf p symbols budget x

/-- Applying a function to every symbol's value applies it to the collected values. -/
theorem sequenceOf_map (f : α → β) (p : Symbol → Parser σ α) (symbols : Alternative) :
    sequenceOf (fun s => (p s).map f) symbols = (sequenceOf p symbols).map (List.map f) := by
  induction symbols using List.reverseRecOn with
  | nil => rfl
  | append_singleton symbols s ih =>
    ext budget x
    case starts => rw [starts_sequenceOf, Parser.starts_map, starts_sequenceOf]
    case run =>
      rw [run_sequenceOf_concat, ih, Parser.run_map, Parser.run_map, Results.flatMap_map,
        run_sequenceOf_concat, Results.map_flatMap]
      congr 1
      funext ⟨vs, mid⟩
      simp only [Parser.run_map, Results.map_map, List.map_append, List.map_cons, List.map_nil]

theorem choiceOf_map (f : α → β) (p : Symbol → Parser σ α) (alternatives : List Alternative) :
    choiceOf (fun s => (p s).map f) alternatives = (choiceOf p alternatives).map (List.map f) := by
  have each : alternatives.map (sequenceOf fun s => (p s).map f) =
      (alternatives.map (sequenceOf p)).map (·.map (List.map f)) := by
    rw [List.map_map]
    exact List.map_congr_left fun symbols _ => sequenceOf_map f p symbols
  rw [choiceOf, each, choiceOf, Parser.map_anyOf]

/-- The alternatives of a nonterminal in order, each result with the index of its alternative. -/
def expansionOf (p : Symbol → Parser σ Derivation) (name : String)
    (alternatives : List Alternative) : Parser σ Derivation :=
  .anyOf (alternatives.mapIdx fun choice symbols =>
    (sequenceOf p symbols).map (.expansion name choice))

/-- Without the indices an expansion is the choice between the alternatives. -/
theorem expansionOf_map_tree (p : Symbol → Parser σ Derivation) (name : String)
    (alternatives : List Alternative) :
    (expansionOf p name alternatives).map Derivation.tree =
      (choiceOf (fun s => (p s).map Derivation.tree) alternatives).map (.nonterminal name) := by
  rw [expansionOf, choiceOf, Parser.map_anyOf, Parser.map_anyOf]
  congr 1
  apply List.ext_getElem?
  intro i
  simp only [List.getElem?_map, List.getElem?_mapIdx, Option.map_map]
  congr 1
  funext symbols
  simp only [Function.comp_def, sequenceOf_map, Parser.map_map, Derivation.tree,
    Derivation.trees_eq_map]

/-- A result of a sequence is a result of its beginning, carried on by one of the last symbol. -/
theorem exists_of_mem_sequenceOf_concat {p : Symbol → Parser σ α} {symbols : Alternative}
    {s : Symbol} {budget : Nat} {x rest : Input σ} {vs : List α}
    (member : (vs, rest) ∈ ((sequenceOf p (symbols ++ [s])).run budget x).items) :
    ∃ front last mid, vs = front ++ [last] ∧
      (front, mid) ∈ ((sequenceOf p symbols).run budget x).items ∧
      (last, rest) ∈ ((p s).run budget mid).items := by
  rw [run_sequenceOf_concat] at member
  obtain ⟨⟨front, mid⟩, before, after⟩ := Results.mem_items_flatMap member
  rw [Results.items_map] at after
  obtain ⟨⟨last, rest'⟩, inside, same⟩ := List.mem_map.mp after
  obtain ⟨rfl, rfl⟩ := Prod.mk.inj same
  exact ⟨front, last, mid, rfl, before, inside⟩

/-- A result of an expansion is a result of one of its alternatives, under that one's index. -/
theorem exists_of_mem_expansionOf {p : Symbol → Parser σ Derivation} {name : String}
    {alternatives : List Alternative} {budget : Nat} {d : Derivation}
    {x rest : Input σ}
    (member : (d, rest) ∈ ((expansionOf p name alternatives).run budget x).items) :
    ∃ choice symbols children, alternatives[choice]? = some symbols ∧
      d = .expansion name choice children ∧
      (children, rest) ∈ ((sequenceOf p symbols).run budget x).items := by
  obtain ⟨q, among, inside⟩ := Parser.mem_items_anyOf member
  obtain ⟨choice, bound, rfl⟩ := List.mem_mapIdx.mp among
  obtain ⟨children, result, rfl⟩ := Parser.mem_items_map.mp inside
  exact ⟨choice, _, children, List.getElem?_eq_getElem bound, rfl, result⟩

end

variable {σ : Type} [Alphabet σ] [DecidableEq σ]

/-- The parser of a symbol's derivations, with nonterminals expanded up to the given depth. -/
def derivationWithin (g : Grammar) (o : Options) : (depth : Nat) → Symbol → Parser σ Derivation
  | _, .terminal name => (terminalParser o name).map fun _ => .terminal name
  | 0, .nonterminal _ => .exhausted
  | depth + 1, .nonterminal name =>
    match g.alternatives? name with
    | none => .fail
    | some alternatives => expansionOf (g.derivationWithin o depth) name alternatives

/-- The parser of a symbol's derivations. -/
def derivationParser (g : Grammar) (o : Options) (s : Symbol) : Parser σ Derivation where
  run budget x := (g.derivationWithin o budget s).run budget x
  starts budget x := (g.derivationWithin o budget s).starts budget x
  cut_of_not_starts budget := (g.derivationWithin o budget s).cut_of_not_starts budget

/-- To show something of all symbols at all depths of expansion: terminals are the same at every
depth, nonterminals are cut at depth zero, and one step deeper they build on all symbols. -/
theorem depth_induction {motive : Nat → Symbol → Prop}
    (terminal : ∀ depth name, motive depth (.terminal name))
    (cut : ∀ name, motive 0 (.nonterminal name))
    (expand : ∀ depth name, (∀ s, motive depth s) → motive (depth + 1) (.nonterminal name))
    (depth : Nat) (s : Symbol) : motive depth s := by
  induction depth generalizing s with
  | zero =>
    cases s with
    | terminal name => exact terminal 0 name
    | nonterminal name => exact cut name
  | succ depth ih =>
    cases s with
    | terminal name => exact terminal (depth + 1) name
    | nonterminal name => exact expand depth name ih

/-- Nothing is expanded before the first result is asked for, not even by a rule that begins with its
own symbol. -/
theorem starts_symbolParser (g : Grammar) (o : Options) (s : Symbol) (budget : Nat) (x : Input σ) :
    (g.symbolParser o s).starts budget x = true := by
  change (g.symbolWithin o budget s).starts budget x = true
  cases s with
  | terminal name =>
    rw [symbolWithin_terminal, terminalParser]
    split <;> rfl
  | nonterminal name =>
    cases budget with
    | zero => rfl
    | succ depth =>
      rw [symbolWithin_succ]
      cases g.alternatives? name with
      | none => rfl
      | some alternatives => exact starts_choiceOf _ alternatives _ x

/-- Parsers of a symbol are the same when their results are. -/
theorem symbolParser_eq {g h : Grammar} {o : Options} {s : Symbol}
    (same : ∀ budget x, (h.symbolParser o s : Parser σ ParseTree).run budget x =
      (g.symbolParser o s).run budget x) :
    (h.symbolParser o s : Parser σ ParseTree) = g.symbolParser o s := by
  ext budget x
  case run => exact same budget x
  case starts => rw [starts_symbolParser, starts_symbolParser]

theorem derivationWithin_terminal (g : Grammar) (o : Options) (depth : Nat) (name : String) :
    (g.derivationWithin o depth (.terminal name) : Parser σ Derivation) =
      (terminalParser o name).map fun _ => .terminal name := by
  cases depth <;> rfl

theorem terminalParser_map_tree (o : Options) (name : String) :
    ((terminalParser o name : Parser σ ParseTree).map fun _ =>
      Derivation.terminal name).map Derivation.tree = terminalParser o name := by
  unfold terminalParser
  rw [Parser.map_map, Parser.map_map]
  rfl

/-- The parser of trees is the parser of derivations with the choices forgotten. -/
theorem symbolWithin_eq_map (g : Grammar) (o : Options) (depth : Nat) (s : Symbol) :
    (g.symbolWithin o depth s : Parser σ ParseTree) =
      (g.derivationWithin o depth s).map Derivation.tree := by
  induction depth, s using depth_induction with
  | terminal depth name =>
    rw [symbolWithin_terminal, derivationWithin_terminal, terminalParser_map_tree]
  | cut name => rfl
  | expand depth name ih =>
    rw [symbolWithin_succ, derivationWithin]
    cases g.alternatives? name with
    | none => rfl
    | some alternatives =>
      have below : g.symbolWithin o depth =
          fun s => (g.derivationWithin o depth s : Parser σ Derivation).map Derivation.tree :=
        funext ih
      simp only [below, expansionOf_map_tree]

theorem symbolParser_eq_map (g : Grammar) (o : Options) (s : Symbol) :
    (g.symbolParser o s : Parser σ ParseTree) = (g.derivationParser o s).map Derivation.tree := by
  ext budget x
  all_goals
    simp only [symbolParser, symbolWithin_eq_map]
    rfl

theorem alternativeParser_eq_map (g : Grammar) (o : Options) (symbols : Alternative) :
    (g.alternativeParser o symbols : Parser σ (List ParseTree)) =
      (sequenceOf (g.derivationParser o) symbols).map (List.map Derivation.tree) := by
  rw [← sequenceOf_map, alternativeParser]
  congr 1
  exact funext fun s => symbolParser_eq_map g o s

theorem alternativesParser_eq_map (g : Grammar) (o : Options) (alternatives : List Alternative) :
    (g.alternativesParser o alternatives : Parser σ (List ParseTree)) =
      (choiceOf (g.derivationParser o) alternatives).map (List.map Derivation.tree) := by
  rw [← choiceOf_map, alternativesParser]
  congr 1
  exact funext fun s => symbolParser_eq_map g o s

end AllParses.Grammar
