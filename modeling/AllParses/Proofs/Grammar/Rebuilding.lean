import AllParses.Proofs.Grammar.Declaration

/-!
# Rebuilding a grammar

The alternatives of a grammar are changed by way of its list of rules: the rules are listed, changed
and added again one by one, and adding joins the rules of one name. What carries this module is that
nothing is joined on the way when the list has each name once. The grammars of which this holds are
those that the constructors make, and no other (`built_iff_ofRules_rules`): a grammar from outside may
list a name twice, or list one without a rule, and then it is another one that is built again.
-/
namespace AllParses.Grammar

variable {g : Grammar}

/-- Listing the rules and adding them again gives the grammar back exactly if it was built this way. -/
theorem built_iff_ofRules_rules : g.Built ↔ ofRules g.rules = g := by
  constructor
  · intro built
    exact built.consistent.ofRules_rules
  · intro same
    rw [← same]
    exact .ofRules g.rules

/-- Rules behind others are added to the grammar of those. -/
theorem ofRules_append (rules more : List Rule) :
    ofRules (rules ++ more) = more.foldl (fun g rule => g.addRule rule.1 rule.2) (ofRules rules) := by
  rw [ofRules, List.foldl_append]
  rfl

/-- A second change sees the alternatives that the first one has made, each under its own name. -/
theorem Consistent.mapRules_mapRules (consistent : g.Consistent)
    (f h : List Alternative → List Alternative) :
    (g.mapRules f).mapRules h = g.mapRules fun alternatives => h (f alternatives) := by
  rw [mapRules, consistent.rules_mapRules, List.map_map]
  rfl

/-- A grammar that is built by the constructors is nothing but its list of rules: these rules, added
one by one, make it again, with the same rules by name and the same order of names. So changing its
alternatives by a function that does nothing leaves it as it is, changing them twice is changing them
once by both functions, and a change keeps the names, their order and which of them have a rule, and
gives each rule its changed alternatives. Rules that are given in two parts make the grammar of the
first part with the others added one by one. -/
theorem rebuilding_is_faithful :
    (∀ g : Grammar, g.Built →
      ofRules g.rules = g ∧ g.mapRules id = g ∧
      ∀ f h : List Alternative → List Alternative,
        (g.mapRules f).mapRules h = g.mapRules (fun alternatives => h (f alternatives)) ∧
        (g.mapRules f).nonterminals = g.nonterminals ∧
        ∀ name, (g.mapRules f).alternatives? name = (g.alternatives? name).map f) ∧
    ∀ rules more : List Rule,
      ofRules (rules ++ more) =
        more.foldl (fun g rule => g.addRule rule.1 rule.2) (ofRules rules) := by
  refine ⟨fun g built => ?_, ofRules_append⟩
  have consistent := built.consistent
  refine ⟨built_iff_ofRules_rules.mp built, ?_, fun f h => ?_⟩
  · exact consistent.mapRules_eq_self fun _ _ => rfl
  · exact ⟨consistent.mapRules_mapRules f h, consistent.order_mapRules f,
      consistent.alternatives?_mapRules f⟩

/-- The rules of `S` stand on both sides of the rule of `T`, and two alternatives are empty. -/
def parted : Grammar :=
  ofRules [("S", [[.terminal "a"], []]), ("T", [[]]), ("S", [[.terminal "b", .nonterminal "T"]])]

/-- Turning the alternatives round and then leaving out the empty ones is one change, after which `T`
has a rule without alternatives and stays behind `S`; `U` has no rule before and none after it. The
second rule of `S` is added behind the alternatives of the first. -/
theorem parted_is_rebuilt :
    parted.Built ∧ ofRules parted.rules = parted ∧ parted.mapRules id = parted ∧
    (parted.mapRules List.reverse).mapRules (List.filter fun symbols => symbols ≠ []) =
      parted.mapRules (fun alternatives => alternatives.reverse.filter fun symbols => symbols ≠ []) ∧
    (parted.mapRules List.reverse).nonterminals = ["S", "T"] ∧
    (parted.mapRules List.reverse).alternatives? "S" =
      some [[.terminal "b", .nonterminal "T"], [], [.terminal "a"]] ∧
    (parted.mapRules List.reverse).alternatives? "U" = none ∧
    parted = (ofRules [("S", [[.terminal "a"], []]), ("T", [[]])]).addRule "S"
      [[.terminal "b", .nonterminal "T"]] := by
  obtain ⟨of_built, of_append⟩ := rebuilding_is_faithful
  have built : parted.Built := .ofRules _
  obtain ⟨rebuilt, unchanged, changed⟩ := of_built parted built
  obtain ⟨twice, names, found⟩ := changed List.reverse (List.filter fun symbols => symbols ≠ [])
  have order : parted.nonterminals = ["S", "T"] := by decide +kernel
  have of_S : parted.alternatives? "S" =
      some [[.terminal "a"], [], [.terminal "b", .nonterminal "T"]] := by decide +kernel
  have of_U : parted.alternatives? "U" = none := by decide +kernel
  refine ⟨built, rebuilt, unchanged, twice, names.trans order, ?_, ?_,
    of_append [("S", [[.terminal "a"], []]), ("T", [[]])] [("S", [[.terminal "b", .nonterminal "T"]])]⟩
  · rw [found, of_S]
    rfl
  · rw [found, of_U]
    rfl

end AllParses.Grammar
