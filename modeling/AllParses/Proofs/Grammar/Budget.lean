import AllParses.Proofs.Grammar.Spelling
import AllParses.Proofs.Grammar.Tracing

/-!
# Larger budgets

A symbol's result set under a larger budget goes on where it was cut under a smaller one, and what
was held before stays in its place (`approximates_symbolParser`). So a result is never taken back,
and a result set that is finished under some budget is the same under every larger one. This holds
for every grammar; how large a budget must be is another question.

No budget is large enough where the first alternative of a symbol begins with the symbol itself
(`run_symbolParser_of_left_recursion`).
-/
namespace AllParses.Grammar

section

variable {σ α : Type} {p q : Symbol → Parser σ α} {small large : Nat}

theorem approximates_sequenceOf
    (below : ∀ s x, ((p s).run small x).Approximates ((q s).run large x))
    (symbols : Alternative) (x : Input σ) :
    ((sequenceOf p symbols).run small x).Approximates ((sequenceOf q symbols).run large x) := by
  induction symbols using List.reverseRecOn with
  | nil => exact .refl _
  | append_singleton symbols s ih =>
    rw [run_sequenceOf_concat, run_sequenceOf_concat]
    exact ih.flatMap fun (vs, mid) => (below s mid).map _

theorem approximates_choiceOf
    (below : ∀ s x, ((p s).run small x).Approximates ((q s).run large x))
    (alternatives : List Alternative) (x : Input σ) :
    ((choiceOf p alternatives).run small x).Approximates ((choiceOf q alternatives).run large x) := by
  induction alternatives with
  | nil => exact .refl _
  | cons symbols alternatives ih =>
    rw [choiceOf, List.map_cons, Parser.anyOf_cons, choiceOf, List.map_cons, Parser.anyOf_cons]
    exact (approximates_sequenceOf below symbols x).append ih

end

variable {σ : Type} [Alphabet σ] [DecidableEq σ] {g : Grammar} {o : Options}

/-- Expanding deeper does not change what was found before. -/
theorem approximates_symbolWithin {depth depth' small large : Nat} (deeper : depth ≤ depth')
    (s : Symbol) (x : Input σ) :
    ((g.symbolWithin o depth s).run small x).Approximates
      ((g.symbolWithin o depth' s).run large x) := by
  induction depth, s using depth_induction generalizing x depth' with
  | terminal depth name =>
    rw [symbolWithin_terminal, symbolWithin_terminal, run_terminalParser, run_terminalParser]
    exact .refl _
  | cut name => exact .cut _
  | expand depth name ih =>
    obtain ⟨more, rfl⟩ : ∃ more, depth' = more + 1 := ⟨depth' - 1, by omega⟩
    rw [symbolWithin_succ, symbolWithin_succ]
    cases g.alternatives? name with
    | none => exact .refl _
    | some alternatives =>
      have below := approximates_choiceOf
        (fun s x => ih s (Nat.le_of_succ_le_succ deeper) x) alternatives x
      exact below.map _

/-- A larger budget carries the results of a symbol on from where they were cut. -/
theorem approximates_symbolParser {small large : Nat} (more : small ≤ large) (s : Symbol)
    (x : Input σ) :
    ((g.symbolParser o s).run small x).Approximates ((g.symbolParser o s).run large x) :=
  approximates_symbolWithin more s x

/-! ## Left recursion -/

omit [Alphabet σ] [DecidableEq σ] in
/-- A sequence is not known before its first symbol is. -/
theorem run_sequenceOf_cut {α : Type} {parserOf : Symbol → Parser σ α} {s : Symbol} {budget : Nat}
    {x : Input σ} (unknown : (parserOf s).run budget x = .cut) (symbols : Alternative) :
    (sequenceOf parserOf (s :: symbols)).run budget x = .cut := by
  induction symbols using List.reverseRecOn with
  | nil =>
    rw [← List.nil_append [s], run_sequenceOf_concat, run_sequenceOf_nil]
    simp [Results.single, Results.flatMap, unknown, Results.map]
  | append_singleton symbols t ih =>
    rw [← List.cons_append, run_sequenceOf_concat, ih, Results.flatMap]

/-- A symbol whose first alternative begins with the symbol itself has no result, however large the
budget is, and it is not known either that there is none. -/
theorem run_symbolParser_of_left_recursion {name : String} {symbols : Alternative}
    {others : List Alternative}
    (rule : g.alternatives? name = some ((.nonterminal name :: symbols) :: others)) (budget : Nat)
    (x : Input σ) : (g.symbolParser o (.nonterminal name)).run budget x = .cut := by
  have expansion : ∀ depth, (g.symbolWithin o depth (.nonterminal name)).run budget x = .cut := by
    intro depth
    induction depth with
    | zero => rfl
    | succ depth ih =>
      rw [symbolWithin_succ, rule]
      dsimp only
      rw [choiceOf, List.map_cons, Parser.anyOf_cons, Parser.run_map, Parser.run_either,
        run_sequenceOf_cut ih symbols]
      rfl
  exact expansion budget

/-- The grammar of `A ::= A a .` -/
def leftRecursive : Grammar :=
  .ofRules [("A", [[.nonterminal "A", .terminal "a"]])]

theorem run_leftRecursive (budget : Nat) (x : Input Char) :
    (leftRecursive.symbolParser {} (.nonterminal "A")).run budget x = .cut := by
  have rule : leftRecursive.alternatives? "A" = some [[.nonterminal "A", .terminal "a"]] := by
    decide +kernel
  exact run_symbolParser_of_left_recursion rule budget x

end AllParses.Grammar
