import Std.Data.ExtTreeMap

/-!
# Grammars

A grammar maps the name of a nonterminal to its alternatives, in order.  Beside this map it keeps
the names in the order of their declaration, which decides how rules are listed and shown.

The constructors `empty`, `addRule`, `ofRules` and `mapRules` keep the two in step.  A
grammar that comes from outside may name a rule it does not have, have one it does not name, or
name one twice; each function below says which of the two it looks at.
-/

namespace AllParses

namespace Grammar

/-- What may stand in an alternative. -/
inductive Symbol where
  | terminal (name : String)
  | nonterminal (name : String)
  deriving DecidableEq, Repr, Inhabited

namespace Symbol

/-- The name without the kind; this is also how a symbol is shown. -/
def name : Symbol → String
  | terminal name => name
  | nonterminal name => name

def isTerminal : Symbol → Bool
  | terminal _ => true
  | nonterminal _ => false

end Symbol

/-- One right-hand side of a rule; it may be empty. -/
abbrev Alternative := List Symbol

/-- A nonterminal with its alternatives. -/
abbrev Rule := String × List Alternative

end Grammar

/-- Rules by name, and the order in which they were declared. -/
structure Grammar where
  /-- The alternatives of each nonterminal that has a rule. -/
  alternativesOf : Std.ExtTreeMap String (List Grammar.Alternative)
  /-- The names in the order of declaration. -/
  order : List String
  deriving DecidableEq

namespace Grammar

/-- The grammar without rules. -/
def empty : Grammar :=
  ⟨∅, []⟩

instance : Inhabited Grammar := ⟨empty⟩

/-- The alternatives of `name`, if it has a rule. -/
def alternatives? (g : Grammar) (name : String) : Option (List Alternative) :=
  g.alternativesOf[name]?

/-- Whether `name` has a rule. -/
def contains (g : Grammar) (name : String) : Bool :=
  (g.alternatives? name).isSome

/-- Adds alternatives to the rule of `name`, after those it has; without a rule, declares one
last. -/
def addRule (g : Grammar) (name : String) (alternatives : List Alternative) : Grammar :=
  match g.alternatives? name with
  | some present =>
    { g with alternativesOf := g.alternativesOf.insert name (present ++ alternatives) }
  | none =>
    { alternativesOf := g.alternativesOf.insert name alternatives, order := g.order ++ [name] }

/-- The grammar of one rule. -/
def singleton (name : String) (alternatives : List Alternative) : Grammar :=
  empty.addRule name alternatives

/-- The grammar of the given rules.  Rules for one name are joined in the order given. -/
def ofRules (rules : List Rule) : Grammar :=
  rules.foldl (fun g (name, alternatives) => g.addRule name alternatives) empty

/-- The declared names, in order. -/
def nonterminals (g : Grammar) : List String :=
  g.order

/-- The rules in the order of declaration.  A declared name without a rule is passed over. -/
def rules (g : Grammar) : List Rule :=
  g.order.filterMap fun name => (g.alternatives? name).map fun alternatives => (name, alternatives)

/-- The number of declared names. -/
def size (g : Grammar) : Nat :=
  g.order.length

/-- Whether no name is declared. -/
def isEmpty (g : Grammar) : Bool :=
  g.order.isEmpty

/-- Applies `f` to the alternatives of every rule and keeps the names and their order. -/
def mapRules (f : List Alternative → List Alternative) (g : Grammar) : Grammar :=
  ofRules (g.rules.map fun (name, alternatives) => (name, f alternatives))

/-- The nonterminals that the alternatives mention, in reading order. -/
def references (alternatives : List Alternative) : List String :=
  alternatives.flatten.filterMap fun
    | .terminal _ => none
    | .nonterminal name => some name

/-- Every pair of a rule and a nonterminal that the rule mentions and that has no rule itself, in
the order of declaration and then of reading, each pair once. -/
def danglingReferences (g : Grammar) : List (String × String) :=
  (g.rules.flatMap fun (rule, alternatives) =>
    ((references alternatives).filter fun name => !g.contains name).map fun name =>
      (rule, name)).eraseDups

@[simp] theorem alternatives?_empty (name : String) : empty.alternatives? name = none := by
  simp [alternatives?, empty]

/-- Adding a rule changes the alternatives of that name only. -/
theorem alternatives?_addRule (g : Grammar) (name : String) (alternatives : List Alternative)
    (other : String) :
    (g.addRule name alternatives).alternatives? other =
      if other = name then some ((g.alternatives? name).getD [] ++ alternatives)
      else g.alternatives? other := by
  unfold addRule
  by_cases h : other = name
  · subst h
    split <;> rename_i e <;> simp_all [alternatives?]
  · have h' : ¬ name = other := fun e => h e.symm
    split <;> rename_i e <;> simp [alternatives?, h, Std.ExtTreeMap.getElem?_insert, h']

theorem order_addRule (g : Grammar) (name : String) (alternatives : List Alternative) :
    (g.addRule name alternatives).order =
      if g.contains name then g.order else g.order ++ [name] := by
  unfold addRule contains
  split <;> rename_i e <;> simp [e]

/-- Two grammars are equal when they have the same rules and the same order. -/
theorem ext_alternatives {g h : Grammar} (order : g.order = h.order)
    (rules : ∀ name, g.alternatives? name = h.alternatives? name) : g = h := by
  cases g with
  | mk gm go =>
    cases h with
    | mk hm ho =>
      simp only at order
      subst order
      have : gm = hm := Std.ExtTreeMap.ext_getElem? rules
      rw [this]

end Grammar

end AllParses
