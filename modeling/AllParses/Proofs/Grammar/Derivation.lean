import AllParses.Grammar.Parsing
import Mathlib.Data.List.Basic

/-!
# Derivations

A parse tree conforms to a grammar when each of its nodes does: a terminal has no children, and
the children of a nonterminal are, by kind and name, one of its alternatives. Two alternatives may
be equal, and then one tree is derived in several ways. A `Derivation` therefore also records at
every nonterminal which alternative was chosen:

* `conforms_iff_exists_valid`: the conforming trees are those of the valid derivations;
* `Precedes`: the order of choice lists that differ at some place. Unlike the lexicographic order,
  which it refines, it is kept when anything is put behind the two lists.
-/
namespace AllParses

open Grammar (Symbol Alternative)

/-- Every node of the tree is allowed by the grammar. -/
inductive ParseTree.Conforms (g : Grammar) : ParseTree → Prop where
  | terminal (name : String) : Conforms g (.node (.terminal name) [])
  | nonterminal {name : String} {alternatives : List Alternative} {children : List ParseTree}
    (rule : g.alternatives? name = some alternatives)
    (chosen : children.map label ∈ alternatives) (each : ∀ t ∈ children, Conforms g t) :
    Conforms g (.node (.nonterminal name) children)

/-- A parse tree in which every nonterminal knows the index of the alternative it was expanded
to. -/
inductive Derivation where
  | terminal (name : String)
  | expansion (name : String) (choice : Nat) (children : List Derivation)

namespace Derivation

/-- The symbol that is derived. -/
def symbol : Derivation → Symbol
  | terminal name => .terminal name
  | expansion name _ _ => .nonterminal name

mutual

/-- The parse tree, which does not show the choices. -/
def tree : Derivation → ParseTree
  | terminal name => .terminal name
  | expansion name _ children => .nonterminal name (trees children)

/-- The parse trees of several derivations. -/
def trees : List Derivation → List ParseTree
  | [] => []
  | d :: ds => d.tree :: trees ds

end

mutual

/-- The chosen alternatives, from the root to the leaves and from left to right. -/
def choices : Derivation → List Nat
  | terminal _ => []
  | expansion _ choice children => choice :: choicesAll children

/-- The chosen alternatives of several derivations, one derivation after the other. -/
def choicesAll : List Derivation → List Nat
  | [] => []
  | d :: ds => d.choices ++ choicesAll ds

end

/-- The terminals that are derived, from left to right. -/
def leaves (d : Derivation) : List String :=
  d.tree.leaves

theorem trees_eq_map (ds : List Derivation) : trees ds = ds.map tree := by
  induction ds with
  | nil => rfl
  | cons d ds ih => rw [trees, ih, List.map_cons]

theorem choicesAll_eq_flatMap (ds : List Derivation) : choicesAll ds = ds.flatMap choices := by
  induction ds with
  | nil => rfl
  | cons d ds ih => rw [choicesAll, ih, List.flatMap_cons]

@[simp] theorem label_tree (d : Derivation) : d.tree.label = d.symbol := by
  cases d <;> rfl

/-- The roots of the parse trees are the derived symbols. -/
theorem labels_trees (ds : List Derivation) :
    (ds.map tree).map ParseTree.label = ds.map symbol := by
  rw [List.map_map]
  exact List.map_congr_left fun d _ => label_tree d

@[simp] theorem leaves_terminal (name : String) : (terminal name).leaves = [name] := rfl

@[simp] theorem leaves_expansion (name : String) (choice : Nat) (children : List Derivation) :
    (expansion name choice children).leaves = children.flatMap leaves := by
  have below : ∀ ts : List Derivation, ParseTree.leavesAll (ts.map tree) = ts.flatMap leaves := by
    intro ts
    rw [ParseTree.leavesAll_eq_flatMap, List.flatMap_map]
    rfl
  rw [leaves, tree, trees_eq_map]
  exact below children

/-- Every expansion is to an alternative that the grammar has at that index. -/
inductive Valid (g : Grammar) : Derivation → Prop where
  | terminal (name : String) : Valid g (.terminal name)
  | expansion {name : String} {alternatives : List Alternative} {choice : Nat}
    {children : List Derivation} (rule : g.alternatives? name = some alternatives)
    (chosen : alternatives[choice]? = some (children.map symbol))
    (each : ∀ d ∈ children, Valid g d) : Valid g (.expansion name choice children)

variable {g : Grammar}

theorem Valid.conforms {d : Derivation} (valid : d.Valid g) : d.tree.Conforms g := by
  induction valid with
  | terminal name => exact .terminal name
  | expansion rule chosen each ih =>
    rw [tree, trees_eq_map]
    refine .nonterminal rule ?_ ?_
    · rw [labels_trees]
      exact List.mem_of_getElem? chosen
    · intro t member
      obtain ⟨d, belongs, rfl⟩ := List.mem_map.mp member
      exact ih d belongs

/-- Conforming trees one by one have derivations all together. -/
theorem exists_valid_of_forall {ts : List ParseTree}
    (each : ∀ t ∈ ts, ∃ d : Derivation, d.Valid g ∧ d.tree = t) :
    ∃ ds : List Derivation, (∀ d ∈ ds, d.Valid g) ∧ ds.map tree = ts := by
  induction ts with
  | nil => exact ⟨[], by simp, rfl⟩
  | cons t ts ih =>
    obtain ⟨d, valid, rfl⟩ := each t (by simp)
    obtain ⟨ds, valids, rfl⟩ := ih fun u member => each u (by simp [member])
    refine ⟨d :: ds, ?_, rfl⟩
    intro e member
    rcases List.mem_cons.mp member with rfl | later
    · exact valid
    · exact valids e later

/-- Forgetting the choices of the valid derivations gives all conforming trees and no others. -/
theorem conforms_iff_exists_valid {t : ParseTree} :
    t.Conforms g ↔ ∃ d : Derivation, d.Valid g ∧ d.tree = t := by
  constructor
  · intro conforms
    induction conforms with
    | terminal name => exact ⟨.terminal name, .terminal name, rfl⟩
    | @nonterminal name alternatives children rule chosen each ih =>
      obtain ⟨ds, valids, rfl⟩ := exists_valid_of_forall ih
      obtain ⟨choice, found⟩ := List.getElem?_of_mem chosen
      rw [labels_trees] at found
      refine ⟨.expansion name choice ds, .expansion rule found valids, ?_⟩
      rw [tree, trees_eq_map]
      rfl
  · rintro ⟨d, valid, rfl⟩
    exact valid.conforms

/-- Two lists of choices that agree up to some place and there differ, the first one having the
earlier choice. -/
inductive Precedes : List Nat → List Nat → Prop where
  | head {i j : Nat} (earlier : i < j) (u v : List Nat) : Precedes (i :: u) (j :: v)
  | tail (i : Nat) {u v : List Nat} (rest : Precedes u v) : Precedes (i :: u) (i :: v)

namespace Precedes

theorem append_left (front : List Nat) {u v : List Nat} (before : Precedes u v) :
    Precedes (front ++ u) (front ++ v) := by
  induction front with
  | nil => exact before
  | cons i front ih => exact .tail i ih

theorem append_right {u v : List Nat} (before : Precedes u v) (w z : List Nat) :
    Precedes (u ++ w) (v ++ z) := by
  induction before with
  | head earlier u v => exact .head earlier (u ++ w) (v ++ z)
  | tail i rest ih => exact .tail i ih

/-- The order of choice lists refines the lexicographic order. -/
theorem lt {u v : List Nat} (before : Precedes u v) : u < v := by
  induction before with
  | head earlier u v => exact List.cons_lt_cons_iff.mpr (.inl earlier)
  | tail i rest ih => exact List.cons_lt_cons_iff.mpr (.inr ⟨rfl, ih⟩)

end Precedes

end Derivation

end AllParses
