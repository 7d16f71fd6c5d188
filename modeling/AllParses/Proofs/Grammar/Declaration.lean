import AllParses.Grammar.Basic
import Mathlib.Data.List.Basic
import Mathlib.Data.List.Induction

/-!
# Declared rules

A grammar keeps its rules in a map and their names in a list. Every grammar that is `Built` by the
constructors is `Consistent`: the list has the name of each rule once and no other name. Such a
grammar is nothing but its list of rules: `ofRules` gives it back (`ofRules_rules`), and changing the
rules one by one keeps their names and their order.
-/
namespace AllParses.Grammar

variable {g : Grammar} {name : String} {alternatives : List Alternative} {rules : List Rule}

/-- The declared names are those that have a rule, each once. -/
structure Consistent (g : Grammar) : Prop where
  nodup : g.order.Nodup
  declared : ∀ name, name ∈ g.order ↔ g.contains name = true

/-- The grammars that the constructors make. -/
inductive Built : Grammar → Prop where
  | empty : Built empty
  | singleton (name : String) (alternatives : List Alternative) :
    Built (singleton name alternatives)
  | ofRules (rules : List Rule) : Built (ofRules rules)
  | addRule {g : Grammar} (built : Built g) (name : String) (alternatives : List Alternative) :
    Built (g.addRule name alternatives)
  | mapRules {g : Grammar} (built : Built g) (f : List Alternative → List Alternative) :
    Built (g.mapRules f)

/-! ## Order and look-up agree -/

theorem contains_iff :
    g.contains name = true ↔ ∃ alternatives, g.alternatives? name = some alternatives :=
  Option.isSome_iff_exists

@[simp] theorem contains_addRule (g : Grammar) (name : String) (alternatives : List Alternative)
    (other : String) :
    (g.addRule name alternatives).contains other = (decide (other = name) || g.contains other) := by
  unfold contains
  rw [alternatives?_addRule]
  split <;> simp_all

@[simp] theorem ofRules_nil : ofRules [] = empty := rfl

theorem ofRules_concat (rules : List Rule) (rule : Rule) :
    ofRules (rules ++ [rule]) = (ofRules rules).addRule rule.1 rule.2 := by
  rw [ofRules, List.foldl_append]
  rfl

namespace Consistent

protected theorem empty : empty.Consistent := by
  refine ⟨List.nodup_nil, fun name => ?_⟩
  simp [contains, empty, alternatives?]

protected theorem addRule (consistent : g.Consistent) (name : String)
    (alternatives : List Alternative) : (g.addRule name alternatives).Consistent := by
  by_cases present : g.contains name = true
  · have same := order_addRule g name alternatives
    rw [if_pos present] at same
    refine ⟨same ▸ consistent.nodup, fun other => ?_⟩
    rw [same, consistent.declared, contains_addRule]
    by_cases equal : other = name
    · simp [equal, present]
    · simp [equal]
  · have longer := order_addRule g name alternatives
    rw [if_neg present] at longer
    have fresh : name ∉ g.order := fun member => present ((consistent.declared name).mp member)
    refine ⟨?_, fun other => ?_⟩
    · rw [longer]
      refine List.nodup_append.mpr ⟨consistent.nodup, by simp, ?_⟩
      rintro declared member last added rfl
      exact fresh (List.mem_singleton.mp added ▸ member)
    · rw [longer, List.mem_append, consistent.declared, contains_addRule]
      simp [or_comm]

end Consistent

theorem consistent_ofRules (rules : List Rule) : (ofRules rules).Consistent := by
  induction rules using List.reverseRecOn with
  | nil => exact .empty
  | append_singleton rules rule ih =>
    rw [ofRules_concat]
    exact ih.addRule _ _

theorem Built.consistent (built : g.Built) : g.Consistent := by
  induction built with
  | empty => exact .empty
  | singleton name alternatives => exact Consistent.empty.addRule name alternatives
  | ofRules rules => exact consistent_ofRules rules
  | addRule _ name alternatives ih => exact ih.addRule name alternatives
  | mapRules => exact consistent_ofRules _

/-! ## Rules as a list -/

/-- What the rules of a list share, and joined rules too, the rules of its grammar share. -/
theorem forall_ofRules {P : Rule → Prop}
    (joined : ∀ name as bs, P (name, as) → P (name, bs) → P (name, as ++ bs))
    (each : ∀ rule ∈ rules, P rule)
    (found : (ofRules rules).alternatives? name = some alternatives) : P (name, alternatives) := by
  induction rules using List.reverseRecOn generalizing alternatives with
  | nil => simp at found
  | append_singleton rules rule ih =>
    have earlier : ∀ as, (ofRules rules).alternatives? name = some as → P (name, as) :=
      fun as => ih fun r member => each r (List.mem_append_left _ member)
    have last : P (rule.1, rule.2) := each rule (by simp)
    rw [ofRules_concat, alternatives?_addRule] at found
    split at found
    case isFalse => exact earlier _ found
    case isTrue same =>
      subst same
      cases before : (ofRules rules).alternatives? rule.1 with
      | none =>
        obtain rfl : rule.2 = alternatives := by simpa [before] using found
        exact last
      | some as =>
        obtain rfl : as ++ rule.2 = alternatives := by simpa [before] using found
        exact joined _ _ _ (earlier as before) last

theorem contains_ofRules : (ofRules rules).contains name = true ↔ name ∈ rules.map Prod.fst := by
  induction rules using List.reverseRecOn with
  | nil => simp [contains]
  | append_singleton rules rule ih =>
    rw [ofRules_concat, contains_addRule, Bool.or_eq_true, ih]
    simp [or_comm]

/-- The rules of a list that are for one name. -/
def rulesFor (rules : List Rule) (name : String) : List Rule :=
  rules.filter fun rule => rule.1 = name

theorem rulesFor_concat (rules : List Rule) (rule : Rule) (name : String) :
    rulesFor (rules ++ [rule]) name =
      if rule.1 = name then rulesFor rules name ++ [rule] else rulesFor rules name := by
  unfold rulesFor
  rw [List.filter_append]
  split <;> simp_all

/-- The rules for one name are joined in their order, and no other rule has a part in it. -/
theorem alternatives?_ofRules_eq (rules : List Rule) (name : String) :
    (ofRules rules).alternatives? name =
      if rulesFor rules name = [] then none else some ((rulesFor rules name).flatMap Prod.snd) := by
  induction rules using List.reverseRecOn with
  | nil => simp [rulesFor]
  | append_singleton rules rule ih =>
    rw [ofRules_concat, alternatives?_addRule, rulesFor_concat]
    by_cases same : rule.1 = name
    · subst same
      rw [if_pos rfl, if_pos rfl, ih]
      split <;> simp_all
    · rw [if_neg same, if_neg (Ne.symm same), ih]

section Distinct

variable (distinct : (rules.map Prod.fst).Nodup)

include distinct

theorem order_ofRules : (ofRules rules).order = rules.map Prod.fst := by
  induction rules using List.reverseRecOn with
  | nil => rfl
  | append_singleton rules rule ih =>
    rw [List.map_append, List.nodup_append] at distinct
    obtain ⟨before, -, apart⟩ := distinct
    have fresh : (ofRules rules).contains rule.1 ≠ true := by
      intro present
      exact apart _ (contains_ofRules.mp present) rule.1 (by simp) rfl
    rw [ofRules_concat, order_addRule, if_neg fresh, ih before]
    simp

theorem alternatives?_ofRules :
    (ofRules rules).alternatives? name = some alternatives ↔ (name, alternatives) ∈ rules := by
  induction rules using List.reverseRecOn with
  | nil => simp
  | append_singleton rules rule ih =>
    rw [List.map_append, List.nodup_append] at distinct
    obtain ⟨before, -, apart⟩ := distinct
    have fresh : (ofRules rules).alternatives? rule.1 = none := by
      rw [← Option.not_isSome_iff_eq_none]
      intro present
      exact apart _ (contains_ofRules.mp present) rule.1 (by simp) rfl
    rw [ofRules_concat, alternatives?_addRule, List.mem_append, List.mem_singleton]
    by_cases same : name = rule.1
    · subst same
      have elsewhere : (rule.1, alternatives) ∉ rules := by
        rw [← ih before, fresh]
        simp
      rw [if_pos rfl, fresh]
      simp [elsewhere, Prod.ext_iff, eq_comm]
    · rw [if_neg same, ih before]
      simp [Prod.ext_iff, same]

theorem rules_ofRules : (ofRules rules).rules = rules := by
  have each : ∀ rule ∈ rules, ((ofRules rules).alternatives? rule.1).map (Prod.mk rule.1) =
      some rule := fun rule member => by
    rw [(alternatives?_ofRules distinct).mpr member]
    rfl
  rw [Grammar.rules, order_ofRules distinct, List.filterMap_map]
  exact (List.filterMap_congr each).trans List.filterMap_some

end Distinct

namespace Consistent

variable (consistent : g.Consistent)

include consistent

theorem map_fst_rules : g.rules.map Prod.fst = g.order := by
  rw [rules, List.map_filterMap]
  have each : ∀ name ∈ g.order, ((g.alternatives? name).map fun alternatives =>
      (name, alternatives)).map Prod.fst = some name := by
    intro name member
    obtain ⟨alternatives, found⟩ := contains_iff.mp ((consistent.declared name).mp member)
    simp [found]
  rw [List.filterMap_congr each, List.filterMap_some]

theorem mem_rules_iff :
    (name, alternatives) ∈ g.rules ↔ g.alternatives? name = some alternatives := by
  rw [rules, List.mem_filterMap]
  constructor
  · rintro ⟨other, -, listed⟩
    obtain ⟨as, found, same⟩ := Option.map_eq_some_iff.mp listed
    obtain rfl : other = name := congrArg Prod.fst same
    obtain rfl : as = alternatives := congrArg Prod.snd same
    exact found
  · intro found
    have present := (consistent.declared name).mpr (contains_iff.mpr ⟨alternatives, found⟩)
    exact ⟨name, present, by simp [found]⟩

theorem ofRules_rules : ofRules g.rules = g := by
  have distinct := consistent.nodup
  rw [← consistent.map_fst_rules] at distinct
  refine ext_alternatives ?_ fun name => Option.ext fun alternatives => ?_
  · rw [order_ofRules distinct, consistent.map_fst_rules]
  · rw [alternatives?_ofRules distinct, consistent.mem_rules_iff]

/-! ## Rules that are changed -/

theorem map_fst_mapRules (f : List Alternative → List Alternative) :
    (g.rules.map fun (name, alternatives) => (name, f alternatives)).map Prod.fst = g.order := by
  rw [List.map_map, ← consistent.map_fst_rules]
  rfl

theorem order_mapRules (f : List Alternative → List Alternative) :
    (g.mapRules f).order = g.order := by
  rw [mapRules, order_ofRules, consistent.map_fst_mapRules]
  rw [consistent.map_fst_mapRules]
  exact consistent.nodup

theorem alternatives?_mapRules (f : List Alternative → List Alternative) (name : String) :
    (g.mapRules f).alternatives? name = (g.alternatives? name).map f := by
  refine Option.ext fun alternatives => ?_
  rw [mapRules, alternatives?_ofRules]
  · rw [Option.map_eq_some_iff, List.mem_map]
    constructor
    · rintro ⟨rule, member, same⟩
      obtain ⟨rfl, rfl⟩ := Prod.mk.inj same
      exact ⟨rule.2, consistent.mem_rules_iff.mp member, rfl⟩
    · rintro ⟨as, found, rfl⟩
      exact ⟨(name, as), consistent.mem_rules_iff.mpr found, rfl⟩
  · rw [consistent.map_fst_mapRules]
    exact consistent.nodup

theorem rules_mapRules (f : List Alternative → List Alternative) :
    (g.mapRules f).rules = g.rules.map fun (name, alternatives) => (name, f alternatives) := by
  refine rules_ofRules ?_
  rw [consistent.map_fst_mapRules]
  exact consistent.nodup

/-- A new name comes last. -/
theorem rules_addRule (fresh : g.contains name = false) (alternatives : List Alternative) :
    (g.addRule name alternatives).rules = g.rules ++ [(name, alternatives)] := by
  have joined := ofRules_concat g.rules (name, alternatives)
  rw [consistent.ofRules_rules] at joined
  rw [← joined]
  refine rules_ofRules ?_
  rw [List.map_append, consistent.map_fst_rules, List.map_singleton]
  refine List.nodup_append.mpr ⟨consistent.nodup, List.pairwise_singleton _ _, ?_⟩
  rintro declared member last added rfl
  obtain rfl := List.mem_singleton.mp added
  rw [(consistent.declared declared).mp member] at fresh
  cases fresh

/-- Alternatives that stay as they are make the same grammar. -/
theorem mapRules_eq_self {f : List Alternative → List Alternative}
    (same : ∀ rule ∈ g.rules, f rule.2 = rule.2) : g.mapRules f = g := by
  have unchanged : (g.rules.map fun (name, alternatives) => (name, f alternatives)) = g.rules := by
    nth_rewrite 2 [← List.map_id g.rules]
    exact List.map_congr_left fun rule member => congrArg (Prod.mk rule.1) (same rule member)
  rw [mapRules, unchanged, consistent.ofRules_rules]

end Consistent

end AllParses.Grammar
