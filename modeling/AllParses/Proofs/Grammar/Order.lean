import AllParses.Proofs.Grammar.Declaration

/-!
# The order of declaration

Half of the functions on grammars look at the list of names, the other half at the map. For a grammar
that is built by the constructors both are about the same rules, and the list tells in which order the
names came up first (`order_lists_the_rules`).

A name is declared where it is first given. `List.eraseDups` keeps the first of equal entries, and
`pairwise_idxOf_eraseDups` says that it keeps them in their order. A list of rules is read from the
left, one rule after the other, so these are inductions from the end of the list.
-/
namespace AllParses

/-! ## First occurrences -/

section

variable {α : Type} [BEq α] [LawfulBEq α]

theorem eraseDups_concat (l : List α) (a : α) :
    (l ++ [a]).eraseDups = if a ∈ l then l.eraseDups else l.eraseDups ++ [a] := by
  rw [List.eraseDups_append]
  split
  case isTrue present => simp [List.removeAll, present]
  case isFalse fresh => simp [List.removeAll, fresh, List.eraseDups_cons]

/-- What is left are the first occurrences, in their order. -/
theorem pairwise_idxOf_eraseDups (l : List α) :
    l.eraseDups.Pairwise fun a b => l.idxOf a < l.idxOf b := by
  induction l using List.reverseRecOn with
  | nil => exact .nil
  | append_singleton l a ih =>
    have same : ∀ b ∈ l, (l ++ [a]).idxOf b = l.idxOf b := fun b member => by
      rw [List.idxOf_append, if_pos member]
    have earlier : l.eraseDups.Pairwise fun b c => (l ++ [a]).idxOf b < (l ++ [a]).idxOf c := by
      refine ih.imp_of_mem fun first second before => ?_
      rwa [same _ (List.mem_eraseDups.mp first), same _ (List.mem_eraseDups.mp second)]
    rw [eraseDups_concat]
    split
    case isTrue => exact earlier
    case isFalse fresh =>
      refine List.pairwise_append.mpr ⟨earlier, List.pairwise_singleton _ _, fun b first c last => ?_⟩
      have member := List.mem_eraseDups.mp first
      rw [List.mem_singleton.mp last, same b member, List.idxOf_append, if_neg fresh]
      exact Nat.lt_add_left _ (List.idxOf_lt_length_iff.mpr member)

theorem nodup_eraseDups (l : List α) : l.eraseDups.Nodup :=
  (pairwise_idxOf_eraseDups l).imp fun before => by
    rintro rfl
    exact Nat.lt_irrefl _ before

theorem eraseDups_filter (p : α → Bool) (l : List α) :
    (l.filter p).eraseDups = l.eraseDups.filter p := by
  induction l using List.reverseRecOn with
  | nil => rfl
  | append_singleton l a ih =>
    rw [List.filter_append, eraseDups_concat]
    cases kept : p a with
    | false =>
      have dropped : [a].filter p = [] := by simp [kept]
      rw [dropped, List.append_nil, ih]
      split <;> simp [kept]
    | true =>
      have held : [a].filter p = [a] := by simp [kept]
      rw [held, eraseDups_concat, ih]
      by_cases present : a ∈ l <;> simp [present, kept]

end

namespace Grammar

variable {g : Grammar} {name : String} {alternatives : List Alternative}

theorem order_ofRules_eq_eraseDups (rules : List Rule) :
    (ofRules rules).order = (rules.map Prod.fst).eraseDups := by
  induction rules using List.reverseRecOn with
  | nil => rfl
  | append_singleton rules rule ih =>
    rw [ofRules_concat, order_addRule, List.map_append, List.map_singleton, eraseDups_concat, ih]
    simp only [contains_ofRules]

theorem rulesFor_eq_nil_iff {rules : List Rule} :
    rulesFor rules name = [] ↔ name ∉ rules.map Prod.fst := by
  rw [rulesFor, List.filter_eq_nil_iff]
  simp only [decide_eq_true_eq, List.mem_map, not_exists, not_and]

/-! ## List and map -/

/-- Adding to one rule does not touch the others, nor their order. -/
theorem filter_rules_addRule (g : Grammar) (name : String) (alternatives : List Alternative) :
    (g.addRule name alternatives).rules.filter (fun rule => rule.1 ≠ name) =
      g.rules.filter fun rule => rule.1 ≠ name := by
  have dropped : ∀ h : Grammar, ((h.alternatives? name).map
      fun alternatives => (name, alternatives)).filter (fun rule => rule.1 ≠ name) = none := by
    intro h
    cases h.alternatives? name <;> simp [Option.filter]
  have each : ∀ other, (((g.addRule name alternatives).alternatives? other).map
      fun alternatives => (other, alternatives)).filter (fun rule => rule.1 ≠ name) =
        ((g.alternatives? other).map fun alternatives => (other, alternatives)).filter
          fun rule => rule.1 ≠ name := by
    intro other
    by_cases same : other = name
    · rw [same, dropped, dropped]
    · rw [alternatives?_addRule, if_neg same]
  rw [rules, rules, List.filter_filterMap, List.filter_filterMap, order_addRule]
  simp only [each]
  split
  case isTrue => rfl
  case isFalse =>
    simp only [List.filterMap_append, List.filterMap_cons, dropped, List.filterMap_nil,
      List.append_nil]

namespace Consistent

variable (consistent : g.Consistent)

include consistent

theorem order_perm_keys : g.order.Perm g.alternativesOf.keys := by
  refine (List.perm_ext_iff_of_nodup consistent.nodup Std.ExtTreeMap.nodup_keys).mpr fun name => ?_
  rw [consistent.declared, Std.ExtTreeMap.mem_keys, contains, alternatives?,
    Std.ExtTreeMap.isSome_getElem?_iff_mem]

theorem length_rules : g.rules.length = g.size := by
  rw [size, ← consistent.map_fst_rules, List.length_map]

theorem isEmpty_iff : g.isEmpty = true ↔ g.alternativesOf = ∅ := by
  have keys := consistent.order_perm_keys
  rw [isEmpty, List.isEmpty_iff, ← Std.ExtTreeMap.isEmpty_iff, ← Std.ExtTreeMap.isEmpty_keys,
    List.isEmpty_iff]
  constructor
  · intro none
    rw [none] at keys
    exact keys.symm.eq_nil
  · intro none
    rw [none] at keys
    exact keys.eq_nil

end Consistent

/-- A grammar that is built by the constructors declares the names of its rules, each once: the list of
names has exactly the keys of the map, and what is counted, looked up and listed is about the same
rules. Rules that are given one after the other declare their names in the order in which these come
up first, and the alternatives of a name are those of all rules for it, in their order. Adding
alternatives for a name leaves every other rule as it is and where it is. -/
theorem order_lists_the_rules :
    (∀ g : Grammar, g.Built →
      g.nonterminals.Nodup ∧ g.nonterminals.Perm g.alternativesOf.keys ∧
      g.size = g.alternativesOf.size ∧ g.size = g.rules.length ∧
      (g.isEmpty = true ↔ g.nonterminals = []) ∧ (g.isEmpty = true ↔ g.alternativesOf = ∅) ∧
      (∀ name, g.contains name = true ↔ name ∈ g.nonterminals) ∧
      g.rules.map Prod.fst = g.nonterminals ∧
      ∀ name alternatives, (name, alternatives) ∈ g.rules ↔
        g.alternatives? name = some alternatives) ∧
    (∀ rules : List Rule,
      (∀ name, name ∈ (ofRules rules).nonterminals ↔ name ∈ rules.map Prod.fst) ∧
      (ofRules rules).nonterminals.Pairwise (fun a b =>
        (rules.map Prod.fst).idxOf a < (rules.map Prod.fst).idxOf b) ∧
      ∀ name, (ofRules rules).alternatives? name =
        if name ∈ rules.map Prod.fst then
          some ((rulesFor rules name).flatMap Prod.snd)
        else none) ∧
    ∀ g : Grammar, g.Built → ∀ name added,
      (g.addRule name added).alternatives? name = some ((g.alternatives? name).getD [] ++ added) ∧
      (∀ other, other ≠ name →
        (g.addRule name added).alternatives? other = g.alternatives? other) ∧
      (g.addRule name added).nonterminals =
        (if name ∈ g.nonterminals then g.nonterminals else g.nonterminals ++ [name]) ∧
      (g.addRule name added).rules.filter (fun rule => rule.1 ≠ name) =
        g.rules.filter fun rule => rule.1 ≠ name := by
  refine ⟨fun g built => ?agree, fun rules => ?first, fun g built name added => ?others⟩
  case agree =>
    have consistent := built.consistent
    have keys := consistent.order_perm_keys
    exact ⟨consistent.nodup, keys, keys.length_eq.trans Std.ExtTreeMap.length_keys,
      consistent.length_rules.symm, List.isEmpty_iff, consistent.isEmpty_iff,
      fun name => (consistent.declared name).symm, consistent.map_fst_rules,
      fun name alternatives => consistent.mem_rules_iff⟩
  case first =>
    rw [nonterminals, order_ofRules_eq_eraseDups]
    refine ⟨fun name => List.mem_eraseDups, pairwise_idxOf_eraseDups _, fun name => ?_⟩
    rw [alternatives?_ofRules_eq]
    simp only [rulesFor_eq_nil_iff, ite_not]
  case others =>
    have consistent := built.consistent
    refine ⟨by rw [alternatives?_addRule, if_pos rfl], fun other different => ?_, ?_,
      filter_rules_addRule g name added⟩
    · rw [alternatives?_addRule, if_neg different]
    · rw [nonterminals, nonterminals, order_addRule]
      simp only [consistent.declared]

/-- A grammar in which `S` has two rules with another one between them. The alternatives of each rule
are turned round, and then `U` is added. -/
def interrupted : Grammar :=
  ((ofRules [("S", [[.terminal "a"]]), ("T", [[]]), ("S", [[.terminal "b"]])]).mapRules
    List.reverse).addRule "U" [[.nonterminal "S"]]

/-- Its three names are the keys of its map, `S` the first one. A further alternative for `T` leaves
their order as it is, and the rules of `S` and `U`. -/
theorem interrupted_order :
    interrupted.Built ∧ interrupted.nonterminals = ["S", "T", "U"] ∧
    interrupted.alternativesOf.size = 3 ∧
    interrupted.contains "T" = true ∧ interrupted.contains "a" = false ∧
    ("S", [[.terminal "b"], [.terminal "a"]]) ∈ interrupted.rules ∧
    (interrupted.addRule "T" [[.terminal "c"]]).nonterminals = ["S", "T", "U"] ∧
    (interrupted.addRule "T" [[.terminal "c"]]).rules.filter (fun rule => rule.1 ≠ "T") =
      [("S", [[.terminal "b"], [.terminal "a"]]), ("U", [[.nonterminal "S"]])] := by
  obtain ⟨agree, -, others⟩ := order_lists_the_rules
  have built : interrupted.Built := (Built.ofRules _).mapRules _ |>.addRule _ _
  obtain ⟨-, -, count, -, -, -, contains, -, listed⟩ := agree _ built
  obtain ⟨-, -, order, rules⟩ := others _ built "T" [[.terminal "c"]]
  have names : interrupted.nonterminals = ["S", "T", "U"] := by decide +kernel
  have kept : interrupted.rules.filter (fun rule => rule.1 ≠ "T") =
      [("S", [[.terminal "b"], [.terminal "a"]]), ("U", [[.nonterminal "S"]])] := by
    decide +kernel
  rw [names] at order
  refine ⟨built, names, ?_, (contains "T").mpr (by simp [names]), ?_,
    (listed _ _).mpr (by decide +kernel), order, rules.trans kept⟩
  · rw [← count]
    exact congrArg List.length names
  · rw [← Bool.not_eq_true, contains, names]
    simp

end Grammar

end AllParses
