import AllParses.Proofs.Grammar.References
import AllParses.Proofs.Grammar.Tracing

/-!
# Expansions meet defined nonterminals only

`Expands` follows the parser of a symbol to the nonterminals that are expanded on the way, at the
inputs where that happens. It leaves none out: two grammars that agree on these nonterminals give the
same results (`run_symbolWithin_congr`). In a closed grammar every expanded nonterminal has a rule
when the start symbol has one, and rules for other names would change nothing.
-/
namespace AllParses

namespace Grammar

section

variable {σ α : Type} {p q : Symbol → Parser σ α} {budget : Nat} {x : Input σ}

theorem run_sequenceOf_congr (symbols : Alternative)
    (same : ∀ before s after, symbols = before ++ s :: after →
      ∀ r ∈ ((sequenceOf p before).run budget x).items, (q s).run budget r.2 = (p s).run budget r.2) :
    (sequenceOf q symbols).run budget x = (sequenceOf p symbols).run budget x := by
  induction symbols using List.reverseRecOn with
  | nil => rfl
  | append_singleton symbols s ih =>
    have front := ih fun before t after split => same before t (after ++ [s]) (by simp [split])
    rw [run_sequenceOf_concat, run_sequenceOf_concat, front]
    refine Results.flatMap_congr fun (vs, mid) member => ?_
    have last : (q s).run budget mid = (p s).run budget mid := same symbols s [] rfl _ member
    exact congrArg _ last

theorem run_choiceOf_congr (alternatives : List Alternative)
    (same : ∀ symbols ∈ alternatives,
      (sequenceOf q symbols).run budget x = (sequenceOf p symbols).run budget x) :
    (choiceOf q alternatives).run budget x = (choiceOf p alternatives).run budget x := by
  induction alternatives with
  | nil => rfl
  | cons symbols alternatives ih =>
    have first := same symbols List.mem_cons_self
    have later := ih fun symbols member => same symbols (List.mem_cons_of_mem _ member)
    rw [choiceOf, choiceOf] at later ⊢
    rw [List.map_cons, List.map_cons, Parser.anyOf_cons, Parser.anyOf_cons]
    simp only [Parser.run_either, first, later]

end

variable {σ : Type} [Alphabet σ] [DecidableEq σ] {g h : Grammar} {o : Options} {budget depth : Nat}
  {s : Symbol} {x y : Input σ} {name : String}

/-- While the results of a symbol are computed a nonterminal is expanded at some input: the symbol
itself, or what is expanded for a symbol of one of its alternatives, wherever the symbols before that
one lead to. -/
inductive Expands (g : Grammar) (o : Options) (budget : Nat) :
    Nat → Symbol → Input σ → String → Input σ → Prop where
  | here {depth : Nat} {name : String} {x : Input σ} :
    Expands g o budget (depth + 1) (.nonterminal name) x name x
  | inside {depth : Nat} {rule name : String} {x mid y : Input σ} {trees : List ParseTree}
    {alternatives : List Alternative} {before after : Alternative} {s : Symbol}
    (found : g.alternatives? rule = some alternatives) (among : before ++ s :: after ∈ alternatives)
    (reached : (trees, mid) ∈ ((sequenceOf (g.symbolWithin o depth) before).run budget x).items)
    (inner : Expands g o budget depth s mid name y) :
    Expands g o budget (depth + 1) (.nonterminal rule) x name y

/-- Only the rules of expanded nonterminals have an influence on the results. -/
theorem run_symbolWithin_congr (agrees : ∀ name y, g.Expands o budget depth s x name y →
      h.alternatives? name = g.alternatives? name) :
    (h.symbolWithin o depth s).run budget x = (g.symbolWithin o depth s).run budget x := by
  induction depth, s using depth_induction generalizing x with
  | terminal depth name => rw [symbolWithin_terminal, symbolWithin_terminal]
  | cut name => rfl
  | expand depth name ih =>
    rw [symbolWithin_succ, symbolWithin_succ, agrees name x .here]
    cases found : g.alternatives? name with
    | none => rfl
    | some alternatives =>
      have same : (choiceOf (h.symbolWithin o depth) alternatives).run budget x =
          (choiceOf (g.symbolWithin o depth) alternatives).run budget x := by
        refine run_choiceOf_congr alternatives fun symbols among => ?_
        refine run_sequenceOf_congr symbols fun before s after split r reached => ?_
        exact ih s fun name y inner => agrees name y (.inside found (split ▸ among) reached inner)
      simp only [Parser.run_map, same]

/-- In a closed grammar expansions stay within the nonterminals that have a rule. -/
theorem Closed.contains_of_expands (closed : g.Closed)
    (start : ∀ name, s = .nonterminal name → g.contains name = true)
    (expands : g.Expands o budget depth s x name y) : g.contains name = true := by
  -- A nonterminal in an alternative is mentioned there, so it has a rule as the start symbol has.
  induction expands with
  | here => exact start _ rfl
  | inside found among reached inner ih =>
    exact ih fun name same => closed _ _ found _ among name (by simp [same])

/-- Rules for names that a closed grammar does not have would change nothing. -/
theorem Closed.startParser_congr (closed : g.Closed)
    (start : ∀ name, s = .nonterminal name → g.contains name = true)
    (agrees : ∀ name, g.contains name = true → h.alternatives? name = g.alternatives? name) :
    (h.startParser o s : Parser σ ParseTree) = g.startParser o s := by
  have same : (h.symbolParser o s : Parser σ ParseTree) = g.symbolParser o s :=
    symbolParser_eq fun budget x => run_symbolWithin_congr fun name y expands =>
      agrees name (closed.contains_of_expands start expands)
  rw [startParser, startParser, same]

end Grammar

end AllParses
