import AllParses.ParseTree
import AllParses.Proofs.Recognizer

/-!
# Trees as they are shown

A shown tree can be read in one way only when the names in it do not look like the marks around them
and the terminals have nothing to hide. Such a tree is `Legible`, and its text determines it, also
inside a longer text: where two texts begin with legible trees and go on with a closing bracket or a
comma, if at all, the trees are the same and so is what follows them (`Legible.determined`). A terminal
is told from a nonterminal by the bracket that does not follow it.

The induction is on the legible tree. The trees below a node are compared one after the other: each is
followed by a comma or, the last one, by the bracket that closes the node, and behind the comma there
is a further tree on both sides or on neither.
-/
namespace AllParses

namespace ParseTree

/-- Whether the character is none of the marks that show where a node begins and ends. -/
def isPlain (c : Char) : Bool :=
  c ≠ '(' && c ≠ ')' && c ≠ ','

/-- A name that cannot be taken for marks or for no tree at all. -/
structure LegibleName (name : String) : Prop where
  ne_empty : name ≠ ""
  plain : ∀ c ∈ name.toList, isPlain c = true

instance (name : String) : Decidable (LegibleName name) :=
  decidable_of_iff (name ≠ "" ∧ name.toList.all isPlain = true)
    ⟨fun ⟨ne_empty, plain⟩ => ⟨ne_empty, List.all_eq_true.mp plain⟩,
      fun ⟨ne_empty, plain⟩ => ⟨ne_empty, List.all_eq_true.mpr plain⟩⟩

/-- All names in the tree are legible, and terminals have no children. -/
inductive Legible : ParseTree → Prop where
  | terminal {name : String} (legible : LegibleName name) : Legible (.node (.terminal name) [])
  | nonterminal {name : String} {children : List ParseTree} (legible : LegibleName name)
    (each : ∀ t ∈ children, Legible t) : Legible (.node (.nonterminal name) children)

/-- What may stand behind a tree: nothing, or a mark that ends it. -/
def Closes (rest : List Char) : Prop :=
  ∀ c ∈ rest.head?, c = ')' ∨ c = ','

/-- Where the tree is shown in front of something that closes it, no other tree is shown. -/
def Determined (t : ParseTree) : Prop :=
  ∀ u : ParseTree, u.Legible → ∀ rest rest', Closes rest → Closes rest' →
    t.display ++ rest = u.display ++ rest' → t = u ∧ rest = rest'

/-- Trees behind another one, each with its comma. -/
def displayFurther (ts : List ParseTree) : List Char :=
  ts.flatMap fun t => ',' :: ' ' :: t.display

theorem displayAll_cons (t : ParseTree) (ts : List ParseTree) :
    displayAll (t :: ts) = t.display ++ displayFurther ts := by
  induction ts generalizing t with
  | nil => simp [displayAll, displayFurther]
  | cons u ts ih => simp [displayAll, ih, displayFurther]

theorem displayFurther_cons (t : ParseTree) (ts : List ParseTree) (rest : List Char) :
    displayFurther (t :: ts) ++ rest = ',' :: ' ' :: (t.display ++ (displayFurther ts ++ rest)) := by
  simp [displayFurther]

theorem closes_further (ts : List ParseTree) (rest : List Char) :
    Closes (displayFurther ts ++ ')' :: rest) := by
  cases ts <;> simp [Closes, displayFurther]

theorem Closes.beginsOutside {rest : List Char} (closes : Closes rest) :
    BeginsOutside isPlain rest := by
  intro c first
  rcases closes c first with rfl | rfl <;> rfl

theorem LegibleName.exists_cons {name : String} (legible : LegibleName name) :
    ∃ c cs, name.toList = c :: cs ∧ isPlain c = true := by
  obtain ⟨c, cs, front⟩ := List.exists_cons_of_ne_nil
    fun none => legible.ne_empty (String.toList_eq_nil_iff.mp none)
  exact ⟨c, cs, front, legible.plain c (by simp [front])⟩

/-- Names end where something else begins. -/
theorem LegibleName.eq_of_append {name other : String} (legible : LegibleName name)
    (legible' : LegibleName other) {rest rest' : List Char} (outside : BeginsOutside isPlain rest)
    (outside' : BeginsOutside isPlain rest')
    (same : name.toList ++ rest = other.toList ++ rest') : name = other ∧ rest = rest' := by
  have behind : rest = rest' := by
    rw [← outside.dropWhile_append legible.plain, same, outside'.dropWhile_append legible'.plain]
  subst behind
  exact ⟨String.toList_inj.mp (List.append_cancel_right same), rfl⟩

theorem display_nonterminal (name : String) (children : List ParseTree) (rest : List Char) :
    (node (.nonterminal name) children).display ++ rest =
      name.toList ++ '(' :: (displayAll children ++ ')' :: rest) := by
  simp [display]

/-- A legible tree begins with its name. -/
theorem Legible.exists_cons {t : ParseTree} (legible : t.Legible) :
    ∃ c cs, t.display = c :: cs ∧ isPlain c = true := by
  cases legible with
  | terminal legible =>
    obtain ⟨c, cs, front, plain⟩ := legible.exists_cons
    exact ⟨c, cs, by rw [display, front], plain⟩
  | nonterminal legible each =>
    obtain ⟨c, cs, front, plain⟩ := legible.exists_cons
    exact ⟨c, _, by rw [display, front, List.cons_append, List.cons_append], plain⟩

/-- Where a tree stands the list of trees is not closed yet. -/
theorem Legible.displayAll_ne {t : ParseTree} (legible : t.Legible) (ts : List ParseTree)
    (rest rest' : List Char) : displayAll (t :: ts) ++ rest ≠ ')' :: rest' := by
  obtain ⟨c, cs, front, plain⟩ := legible.exists_cons
  rw [displayAll_cons, front]
  intro same
  obtain rfl : c = ')' := (List.cons.inj same).1
  cases plain

/-- Trees behind commas are told apart one after the other. -/
theorem further_determined {ts us : List ParseTree} (each : ∀ t ∈ ts, t.Determined)
    (legible : ∀ u ∈ us, u.Legible) {rest rest' : List Char}
    (same : displayFurther ts ++ ')' :: rest = displayFurther us ++ ')' :: rest') :
    ts = us ∧ rest = rest' := by
  induction ts generalizing us with
  | nil =>
    cases us with
    | nil => exact ⟨rfl, (List.cons.inj same).2⟩
    | cons u us =>
      rw [displayFurther_cons] at same
      cases same
  | cons t ts ih =>
    cases us with
    | nil =>
      rw [displayFurther_cons] at same
      cases same
    | cons u us =>
      rw [displayFurther_cons, displayFurther_cons] at same
      have behind_comma := (List.cons.inj (List.cons.inj same).2).2
      obtain ⟨rfl, further⟩ := each t List.mem_cons_self u (legible u List.mem_cons_self) _ _
        (closes_further ts rest) (closes_further us rest') behind_comma
      obtain ⟨rfl, rfl⟩ := ih (fun t member => each t (List.mem_cons_of_mem _ member))
        (fun u member => legible u (List.mem_cons_of_mem _ member)) further
      exact ⟨rfl, rfl⟩

/-- The trees below a node are determined when each of them is. -/
theorem children_determined {ts us : List ParseTree} (each : ∀ t ∈ ts, t.Determined)
    (legible : ∀ t ∈ ts, t.Legible) (legible' : ∀ u ∈ us, u.Legible) {rest rest' : List Char}
    (same : displayAll ts ++ ')' :: rest = displayAll us ++ ')' :: rest') :
    ts = us ∧ rest = rest' := by
  cases ts with
  | nil =>
    cases us with
    | nil => exact ⟨rfl, (List.cons.inj same).2⟩
    | cons u us => exact absurd same.symm ((legible' u List.mem_cons_self).displayAll_ne us _ _)
  | cons t ts =>
    cases us with
    | nil => exact absurd same ((legible t List.mem_cons_self).displayAll_ne ts _ _)
    | cons u us =>
      rw [displayAll_cons, displayAll_cons, List.append_assoc, List.append_assoc] at same
      obtain ⟨rfl, further⟩ := each t List.mem_cons_self u (legible' u List.mem_cons_self) _ _
        (closes_further ts rest) (closes_further us rest') same
      obtain ⟨rfl, rfl⟩ := further_determined (fun t member => each t (List.mem_cons_of_mem _ member))
        (fun u member => legible' u (List.mem_cons_of_mem _ member)) further
      exact ⟨rfl, rfl⟩

/-- Its text determines a legible tree, and where it ends. -/
theorem Legible.determined {t : ParseTree} (legible : t.Legible) : t.Determined := by
  have opening : ∀ text, BeginsOutside isPlain ('(' :: text) := fun _ =>
    BeginsOutside.cons_iff.mpr rfl
  -- Behind a name either the tree is closed or its children begin, and not both.
  have not_both : ∀ text, ¬ Closes ('(' :: text) := fun _ => by simp [Closes]
  induction legible with
  | terminal legible =>
    intro u legible' rest rest' closes closes' same
    cases legible' with
    | terminal legible' =>
      obtain ⟨rfl, rfl⟩ := legible.eq_of_append legible' closes.beginsOutside
        closes'.beginsOutside same
      exact ⟨rfl, rfl⟩
    | nonterminal legible' each' =>
      rw [display_nonterminal] at same
      obtain ⟨-, rfl⟩ := legible.eq_of_append legible' closes.beginsOutside (opening _) same
      exact absurd closes (not_both _)
  | nonterminal legible each ih =>
    intro u legible' rest rest' closes closes' same
    rw [display_nonterminal] at same
    cases legible' with
    | terminal legible' =>
      obtain ⟨-, rfl⟩ := legible.eq_of_append legible' (opening _) closes'.beginsOutside same
      exact absurd closes' (not_both _)
    | nonterminal legible' each' =>
      rw [display_nonterminal] at same
      obtain ⟨rfl, bracketed⟩ := legible.eq_of_append legible' (opening _) (opening _) same
      obtain ⟨rfl, rfl⟩ := children_determined ih each each' (List.cons.inj bracketed).2
      exact ⟨rfl, rfl⟩

/-- Legible trees are shown alike only if they are the same: the same names, each of a terminal in both
or of a nonterminal in both, with the same children. -/
theorem toString_eq_iff {t u : ParseTree} (legible : t.Legible) (legible' : u.Legible) :
    toString t = toString u ↔ t = u := by
  constructor
  · intro shown
    have texts : t.display = u.display := String.ofList_injective shown
    have ended : Closes [] := fun _ first => by cases first
    exact (legible.determined u legible' [] [] ended ended (congrArg (· ++ []) texts)).1
  · rintro rfl
    rfl

/-- A blank in a name, a terminal called like an empty nonterminal, and a nonterminal without children
beside one that has a single child are all told apart. -/
theorem blank_and_empty_told_apart :
    let t := nonterminal "S" [terminal "a b", nonterminal "E" []]
    let u := nonterminal "S" [terminal "a", terminal "b", terminal "E"]
    t.Legible ∧ u.Legible ∧ toString t = "S(a b, E())" ∧ toString u = "S(a, b, E)" ∧
      (toString t = toString u ↔ t = u) := by
  intro t u
  have leaf : ∀ name, LegibleName name → (terminal name).Legible := fun _ => .terminal
  have legible : t.Legible := .nonterminal (by decide) (by
    simp only [List.forall_mem_cons]
    exact ⟨leaf _ (by decide), .nonterminal (by decide) (by simp), by simp⟩)
  have legible' : u.Legible := .nonterminal (by decide) (by
    simp only [List.forall_mem_cons]
    exact ⟨leaf _ (by decide), leaf _ (by decide), leaf _ (by decide), by simp⟩)
  exact ⟨legible, legible', by decide, by decide, toString_eq_iff legible legible'⟩

-- A terminal that is called like a shown nonterminal, and one without a name, hide what they are.
example : (terminal "E()").display = (nonterminal "E" []).display ∧
    (nonterminal "E" [terminal ""]).display = (nonterminal "E" []).display := by
  decide

end ParseTree

end AllParses
