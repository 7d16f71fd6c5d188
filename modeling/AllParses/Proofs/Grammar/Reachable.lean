import AllParses.Proofs.Grammar.Defined
import AllParses.Proofs.Grammar.Soundness
import Mathlib.Logic.Relation

/-!
# Reachable rules

A nonterminal is reached from a symbol when a chain of rules, each of which mentions the next one,
leads to it. Only such nonterminals are ever expanded (`reaches_of_expands`), so the results of a
symbol are fixed by the rules of the nonterminals that it reaches. Which other rules a grammar has,
where its rules were declared, and what its list of names says, has no influence.
-/
namespace AllParses.Grammar

variable {g h : Grammar} {s : Symbol} {rule name : String}

/-- The nonterminal stands in an alternative of the rule. -/
def Mentions (g : Grammar) (rule name : String) : Prop :=
  ∃ alternatives symbols, g.alternatives? rule = some alternatives ∧ symbols ∈ alternatives ∧
    .nonterminal name ∈ symbols

/-- The symbol is a nonterminal, and a chain of mentions leads from it to `name`. -/
def Reaches (g : Grammar) (s : Symbol) (name : String) : Prop :=
  ∃ start, s = .nonterminal start ∧ Relation.ReflTransGen g.Mentions start name

/-- What holds of a symbol and passes on to every nonterminal that is mentioned holds of all that
are reached. -/
theorem Reaches.of_closed {P : String → Prop} (reaches : g.Reaches s name)
    (start : ∀ name, s = .nonterminal name → P name)
    (mentioned : ∀ rule name, P rule → g.Mentions rule name → P name) : P name := by
  obtain ⟨first, same, chain⟩ := reaches
  induction chain with
  | refl => exact start first same
  | tail _ last ih => exact mentioned _ _ ih last

/-! ## Rules that are added -/

theorem alternatives?_foldl_addRule (g : Grammar) {added : List Rule}
    (apart : ∀ rule ∈ added, rule.1 ≠ name) :
    (added.foldl (fun g rule => g.addRule rule.1 rule.2) g).alternatives? name =
      g.alternatives? name := by
  induction added generalizing g with
  | nil => rfl
  | cons rule added ih =>
    have other : name ≠ rule.1 := (apart rule (by simp)).symm
    rw [List.foldl_cons, ih _ fun later member => apart later (by simp [member]),
      alternatives?_addRule, if_neg other]

variable {σ : Type} [Alphabet σ] [DecidableEq σ] {o : Options} {budget depth : Nat} {x y : Input σ}

/-- Nothing but the reachable nonterminals is expanded. -/
theorem reaches_of_expands (expands : g.Expands o budget depth s x name y) :
    g.Reaches s name := by
  induction expands with
  | here => exact ⟨_, rfl, .refl⟩
  | inside found among reached inner ih =>
    obtain ⟨start, rfl, chain⟩ := ih
    exact ⟨_, rfl, .head ⟨_, _, found, among, by simp⟩ chain⟩

/-- Grammars that agree on the reachable nonterminals have the same parser. -/
theorem symbolParser_congr
    (agrees : ∀ name, g.Reaches s name → h.alternatives? name = g.alternatives? name) :
    (h.symbolParser o s : Parser σ ParseTree) = g.symbolParser o s :=
  symbolParser_eq fun _ _ => run_symbolWithin_congr fun name _ expands =>
    agrees name (reaches_of_expands expands)

/-- Parsing depends on the reachable rules only. Two grammars that give the same alternatives, or
none, to each nonterminal that a symbol reaches have the same parser of the symbol: the results on
every input are the same and in the same order. In particular the parser is not changed

* by declaring the rules in another order, as long as those for one name keep their order;
* by adding rules for nonterminals that are not reached;
* by any other list of declared names. -/
theorem symbolParser_of_reachable_rules (o : Options) (s : Symbol) :
    (∀ g h : Grammar,
      (∀ name, g.Reaches s name → h.alternatives? name = g.alternatives? name) →
        (h.symbolParser o s : Parser σ ParseTree) = g.symbolParser o s) ∧
    (∀ rules rules' : List Rule, (∀ name, rulesFor rules' name = rulesFor rules name) →
      ((ofRules rules').symbolParser o s : Parser σ ParseTree) =
        (ofRules rules).symbolParser o s) ∧
    (∀ (g : Grammar) (added : List Rule), (∀ rule ∈ added, ¬ g.Reaches s rule.1) →
      ((added.foldl (fun g rule => g.addRule rule.1 rule.2) g).symbolParser o s :
        Parser σ ParseTree) = g.symbolParser o s) ∧
    ∀ (g : Grammar) (order : List String),
      (({ g with order := order } : Grammar).symbolParser o s : Parser σ ParseTree) =
        g.symbolParser o s := by
  refine ⟨fun g h => symbolParser_congr, ?reordered, ?added, ?order⟩
  case reordered =>
    intro rules rules' same
    apply symbolParser_congr
    intro name _
    rw [alternatives?_ofRules_eq, alternatives?_ofRules_eq, same name]
  case added =>
    intro g added unreachable
    apply symbolParser_congr
    intro name reaches
    apply alternatives?_foldl_addRule
    rintro rule member rfl
    exact unreachable rule member reaches
  case order =>
    intro g order
    apply symbolParser_congr
    intro name _
    rfl

/-- A sign mentions no nonterminal, so its parser stays the same when lists are left-recursive or
missing. That of a list stays the same when the sign is declared first, and when the list of names
is not that of the rules. -/
theorem sign_of_reachable_rules :
    ¬ signedList.Reaches (.nonterminal "SIGN") "LIST" ∧
    ((signedList.addRule "LIST" [[.nonterminal "LIST"]]).symbolParser {} (.nonterminal "SIGN") :
      Parser Char ParseTree) = signedList.symbolParser {} (.nonterminal "SIGN") ∧
    ((singleton "SIGN" [[.terminal "-"], [], []]).symbolParser {} (.nonterminal "SIGN") :
      Parser Char ParseTree) = signedList.symbolParser {} (.nonterminal "SIGN") ∧
    ((ofRules [("SIGN", [[.terminal "-"], [], []]),
      ("LIST", [[.nonterminal "SIGN", .terminal "x", .nonterminal "LIST"], [],
        [.nonterminal "MISSING"]])]).symbolParser {} (.nonterminal "LIST") :
      Parser Char ParseTree) = signedList.symbolParser {} (.nonterminal "LIST") ∧
    (({ signedList with order := ["MISSING", "SIGN"] } : Grammar).symbolParser {}
      (.nonterminal "LIST") : Parser Char ParseTree) =
        signedList.symbolParser {} (.nonterminal "LIST") := by
  have sign : signedList.alternatives? "SIGN" = some [[.terminal "-"], [], []] := rfl
  have only : ∀ name, signedList.Reaches (.nonterminal "SIGN") name → name = "SIGN" := by
    intro name reaches
    refine reaches.of_closed (fun start same => (Symbol.nonterminal.inj same).symm) ?_
    rintro rule mentioned rfl ⟨alternatives, symbols, found, among, member⟩
    obtain rfl := Option.some.inj (sign.symm.trans found)
    have shape : symbols = [.terminal "-"] ∨ symbols = [] := by simpa using among
    rcases shape with rfl | rfl <;> simp at member
  have list : ¬ signedList.Reaches (.nonterminal "SIGN") "LIST" := by
    intro reaches
    exact absurd (only _ reaches) (by decide)
  obtain ⟨agreeing, -, added, -⟩ :=
    @symbolParser_of_reachable_rules Char _ _ {} (.nonterminal "SIGN")
  obtain ⟨-, reordered, -, order⟩ :=
    @symbolParser_of_reachable_rules Char _ _ {} (.nonterminal "LIST")
  refine ⟨list, added signedList [("LIST", [[.nonterminal "LIST"]])] (by simpa using list), ?alone,
    reordered _ _ ?swapped, order _ _⟩
  case alone =>
    refine agreeing _ _ fun name reaches => ?_
    rw [only name reaches]
    rfl
  case swapped =>
    intro name
    by_cases isList : "LIST" = name
    · subst isList
      rfl
    · by_cases isSign : "SIGN" = name <;> simp [rulesFor, isList, isSign]

end AllParses.Grammar
