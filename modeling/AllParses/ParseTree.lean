import AllParses.Grammar.Basic

/-!
# Parse trees

A node carries the grammar symbol that was matched.  A nonterminal has as its children the nodes
of the alternative that matched, in order; the terminals that a parser makes have none.
-/

namespace AllParses

/-- One matched symbol. -/
inductive ParseTree where
  | node (label : Grammar.Symbol) (children : List ParseTree)

namespace ParseTree

instance : Inhabited ParseTree := ⟨node default []⟩

/-- The node of a matched terminal. -/
def terminal (name : String) : ParseTree :=
  node (.terminal name) []

/-- The node of a matched nonterminal. -/
def nonterminal (name : String) (children : List ParseTree) : ParseTree :=
  node (.nonterminal name) children

def label : ParseTree → Grammar.Symbol
  | node label _ => label

def children : ParseTree → List ParseTree
  | node _ children => children

def isTerminal (t : ParseTree) : Bool :=
  t.label.isTerminal

mutual

/-- The names of the terminals, from left to right. -/
def leaves : ParseTree → List String
  | node (.terminal name) children => name :: leavesAll children
  | node (.nonterminal _) children => leavesAll children

/-- The names of the terminals of several trees, from left to right. -/
def leavesAll : List ParseTree → List String
  | [] => []
  | t :: ts => t.leaves ++ leavesAll ts

end

mutual

/-- A terminal is shown as its name, a nonterminal as its name with its children in brackets. -/
def display : ParseTree → List Char
  | node (.terminal name) _ => name.toList
  | node (.nonterminal name) children => name.toList ++ '(' :: displayAll children ++ [')']

/-- Several trees with commas between them. -/
def displayAll : List ParseTree → List Char
  | [] => []
  | [t] => t.display
  | t :: u :: ts => t.display ++ ',' :: ' ' :: displayAll (u :: ts)

end

instance : ToString ParseTree := ⟨fun t => String.ofList t.display⟩

theorem leavesAll_eq_flatMap (ts : List ParseTree) : leavesAll ts = ts.flatMap leaves := by
  induction ts with
  | nil => rfl
  | cons t ts ih => simp [leavesAll, ih]

end ParseTree

end AllParses
