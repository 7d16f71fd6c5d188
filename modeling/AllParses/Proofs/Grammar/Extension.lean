import AllParses.Proofs.Grammar.Termination
import Mathlib.Data.List.Sort

/-!
# Grammars with more alternatives

Alternatives that are added to a rule stand behind those it has, so the choices of a derivation stay
what they were. Every derivation of a grammar is one of the extended grammar, and a derivation of
the extended grammar that does not expand the rule is one of the grammar.

The results of a progressive grammar are its derivations in the order of their choices, so those
under the grammar are what is left of those under the extended one when only the derivations of the
grammar are kept (`items_addRule`). The extended grammar has to be progressive, and then the grammar
is (`Progressive.of_addRule`).
-/
namespace AllParses

open Grammar (Symbol Alternative)

/-- The second list is the first one with more elements between its own, all of which have the
property. -/
inductive Interspersed {α : Type} (P : α → Prop) : List α → List α → Prop where
  | nil : Interspersed P [] []
  | kept (a : α) {as bs : List α} (rest : Interspersed P as bs) :
    Interspersed P (a :: as) (a :: bs)
  | added {b : α} {as bs : List α} (property : P b) (rest : Interspersed P as bs) :
    Interspersed P as (b :: bs)

namespace Interspersed

variable {α β : Type} {P : α → Prop} {as bs : List α}

theorem sublist (interspersed : Interspersed P as bs) : as.Sublist bs := by
  induction interspersed with
  | nil => exact .slnil
  | kept a rest ih => exact ih.cons_cons a
  | added property rest ih => exact ih.cons _

protected theorem map {Q : β → Prop} {f : α → β} (passes : ∀ a, P a → Q (f a))
    (interspersed : Interspersed P as bs) : Interspersed Q (as.map f) (bs.map f) := by
  induction interspersed with
  | nil => exact .nil
  | kept a rest ih => exact .kept (f a) ih
  | added property rest ih => exact .added (passes _ property) ih

/-- What a filter drops stands between what it keeps. -/
theorem of_filter (keep : α → Bool) (dropped : ∀ a ∈ bs, keep a = false → P a) :
    Interspersed P (bs.filter keep) bs := by
  induction bs with
  | nil => exact .nil
  | cons b bs ih =>
    have later := ih fun a member => dropped a (by simp [member])
    cases kept : keep b with
    | true =>
      rw [List.filter_cons_of_pos kept]
      exact .kept b later
    | false =>
      rw [List.filter_cons_of_neg (by simp [kept])]
      exact .added (dropped b (by simp) kept) later

end Interspersed

/-- A node of the tree, its root or one further down, is that of the symbol. -/
inductive ParseTree.HasNode (s : Symbol) : ParseTree → Prop where
  | root (children : List ParseTree) : HasNode s (.node s children)
  | within {label : Symbol} {children : List ParseTree} {t : ParseTree} (child : t ∈ children)
    (inside : HasNode s t) : HasNode s (.node label children)

namespace Grammar

variable {g : Grammar} {rule name : String} {alternatives added : List Alternative}

/-! ## Derivations -/

/-- What a grammar has at the front of a rule stays there when alternatives are added. -/
theorem exists_alternatives?_addRule (name : String) (added : List Alternative)
    (found : g.alternatives? rule = some alternatives) :
    ∃ more, (g.addRule name added).alternatives? rule = some (alternatives ++ more) := by
  rw [alternatives?_addRule]
  split
  case isTrue same =>
    subst same
    exact ⟨added, by rw [found]; rfl⟩
  case isFalse => exact ⟨[], by rw [found, List.append_nil]⟩

theorem alternatives?_addRule_of_ne (other : rule ≠ name) :
    (g.addRule name added).alternatives? rule = g.alternatives? rule := by
  rw [alternatives?_addRule, if_neg other]

/-- A derivation is kept, with its choices. -/
theorem valid_addRule {d : Derivation} (valid : d.Valid g) : d.Valid (g.addRule name added) := by
  induction valid with
  | terminal lexeme => exact .terminal lexeme
  | expansion found chosen each ih =>
    obtain ⟨more, found'⟩ := exists_alternatives?_addRule name added found
    refine .expansion found' ?_ ih
    obtain ⟨bound, -⟩ := List.getElem?_eq_some_iff.mp chosen
    rw [List.getElem?_append_left bound, chosen]

/-- A derivation that is not of the grammar expands the rule somewhere. -/
theorem hasNode_of_not_valid {d : Derivation} (valid : d.Valid (g.addRule name added))
    (fresh : ¬ d.Valid g) : d.tree.HasNode (.nonterminal name) := by
  induction valid with
  | terminal lexeme => exact absurd (.terminal lexeme) fresh
  | @expansion rule alternatives choice children found chosen each ih =>
    rw [Derivation.tree, Derivation.trees_eq_map]
    by_cases same : rule = name
    · subst same
      exact .root _
    · rw [alternatives?_addRule_of_ne same] at found
      have some_fresh : ∃ d ∈ children, ¬ d.Valid g := by
        by_contra none_fresh
        exact fresh (.expansion found chosen fun d member => by_contra fun invalid =>
          none_fresh ⟨d, member, invalid⟩)
      obtain ⟨d, member, invalid⟩ := some_fresh
      exact .within (List.mem_map_of_mem member) (ih d member invalid)

theorem conforms_addRule {t : ParseTree} (conforms : t.Conforms g) :
    t.Conforms (g.addRule name added) := by
  obtain ⟨d, valid, rfl⟩ := Derivation.conforms_iff_exists_valid.mp conforms
  exact (valid_addRule valid).conforms

/-! ## Progress -/

theorem leftCorner_addRule {outer inner : String} (corner : g.LeftCorner outer inner) :
    (g.addRule name added).LeftCorner outer inner := by
  obtain ⟨alternatives, before, after, found, among, nullable⟩ := corner
  obtain ⟨more, found'⟩ := exists_alternatives?_addRule name added found
  refine ⟨_, before, after, found', List.mem_append_left _ among, ?_⟩
  intro s member
  obtain ⟨t, label, conforms, silent⟩ := nullable s member
  exact ⟨t, label, conforms_addRule conforms, silent⟩

theorem hasTerminal_addRule {lexeme : String} (terminal : g.HasTerminal lexeme) :
    (g.addRule name added).HasTerminal lexeme := by
  obtain ⟨rule, alternatives, symbols, found, among, member⟩ := terminal
  obtain ⟨more, found'⟩ := exists_alternatives?_addRule name added found
  exact ⟨rule, _, symbols, found', List.mem_append_left _ among, member⟩

/-- A part of a progressive grammar is progressive. -/
theorem Progressive.of_addRule {σ : Type} [Alphabet σ]
    (progressive : (g.addRule name added).Progressive σ) : g.Progressive σ := by
  constructor
  · intro outer cycle
    have corners : g.LeftCorner ≤ (g.addRule name added).LeftCorner :=
      fun _ _ => leftCorner_addRule
    exact progressive.acyclic outer (Relation.TransGen.mono corners _ _ cycle)
  · intro lexeme terminal
    exact progressive.spelt lexeme (hasTerminal_addRule terminal)

theorem size_le_size_addRule (g : Grammar) (name : String) (added : List Alternative) :
    g.alternativesOf.size ≤ (g.addRule name added).alternativesOf.size := by
  unfold addRule
  split <;> exact Std.ExtTreeMap.size_le_size_insert

theorem expansionBound_addRule {σ : Type} (g : Grammar) (name : String) (added : List Alternative)
    (x : Input σ) : g.expansionBound x ≤ (g.addRule name added).expansionBound x := by
  have more := size_le_size_addRule g name added
  exact Nat.mul_le_mul_left _ (by omega)

/-! ## Results -/

variable {σ : Type} [Alphabet σ] [DecidableEq σ] {o : Options} {s : Symbol} {x : Input σ}
  {budget : Nat}

omit [Alphabet σ] [DecidableEq σ] in
/-- Results in the order of their choices are known from what is among them. -/
theorem eq_of_inOrder {rs rs' : List (Derivation × Input σ)}
    (ordered : InOrder Derivation.choices rs) (ordered' : InOrder Derivation.choices rs')
    (same : ∀ r, r ∈ rs ↔ r ∈ rs') : rs = rs' := by
  have irreflexive : Std.Irrefl fun a b : Derivation × Input σ => a.1.choices < b.1.choices :=
    ⟨fun a => List.lt_irrefl _⟩
  have antisymmetric : Std.Antisymm fun a b : Derivation × Input σ =>
      a.1.choices < b.1.choices :=
    ⟨fun a b before after => absurd after (List.lt_asymm before)⟩
  exact (ordered.imp fun before => before.lt).eq_of_mem_iff (ordered'.imp fun before => before.lt)
    same

open Classical in
/-- The derivations under a grammar are those under the extended grammar that are of the grammar, in
the same order. -/
theorem items_addRule (finished : ((g.derivationParser o s).run budget x).finished = true)
    (finished' : (((g.addRule name added).derivationParser o s).run budget x).finished = true) :
    ((g.derivationParser o s).run budget x).items =
      (((g.addRule name added).derivationParser o s).run budget x).items.filter
        fun r => r.1.Valid g := by
  apply eq_of_inOrder (ordered_derivationParser finished)
    ((ordered_derivationParser finished').filter _)
  rintro ⟨d, rest⟩
  rw [List.mem_filter, mem_items_iff_reads finished, mem_items_iff_reads finished',
    decide_eq_true_eq]
  constructor
  · intro reads
    exact ⟨⟨reads.symbol, valid_addRule reads.valid, reads.spelling⟩, reads.valid⟩
  · rintro ⟨reads, valid⟩
    exact ⟨reads.symbol, valid, reads.spelling⟩

theorem interspersed_addRule (finished : ((g.derivationParser o s).run budget x).finished = true)
    (finished' : (((g.addRule name added).derivationParser o s).run budget x).finished = true) :
    Interspersed (fun r => r.1.HasNode (.nonterminal name))
      ((g.symbolParser o s).run budget x).items
      (((g.addRule name added).symbolParser o s).run budget x).items := by
  classical
  rw [symbolParser_eq_map, symbolParser_eq_map, Parser.run_map, Parser.run_map, Results.items_map,
    Results.items_map, items_addRule finished finished']
  have derivations : Interspersed (fun r => r.1.tree.HasNode (.nonterminal name))
      ((((g.addRule name added).derivationParser o s).run budget x).items.filter
        fun r => decide (r.1.Valid g))
      (((g.addRule name added).derivationParser o s).run budget x).items := by
    apply Interspersed.of_filter
    rintro ⟨d, rest⟩ member invalid
    exact hasNode_of_not_valid (reads_of_mem member).valid (by simpa using invalid)
  exact derivations.map fun _ node => node

/-- Extending a grammar never loses or reorders a parse. Let alternatives be added to a rule, behind
those it has, or as a new rule, and let the extended grammar be progressive. Then so was the
grammar, and on every input the results of a symbol under the grammar are among those under the
extended one, in the same order and with the same trees and remainders. In the tree of every other
result under the extended grammar there is a node of the rule. The start symbol has these results
when their number is not bounded. -/
theorem addRule_keeps_parses (progressive : (g.addRule name added).Progressive σ) (o : Options)
    (s : Symbol) (x : Input σ) (budget : Nat)
    (enough : (g.addRule name added).expansionBound x ≤ budget) :
    g.Progressive σ ∧
    (g.addRule name added).alternatives? name = some ((g.alternatives? name).getD [] ++ added) ∧
    ∃ before after : List (ParseTree × Input σ),
      (g.symbolParser o s).all budget x = some before ∧
      ((g.addRule name added).symbolParser o s).all budget x = some after ∧
      before.Sublist after ∧
      Interspersed (fun r => r.1.HasNode (.nonterminal name)) before after ∧
      (o.maxResults = none → (g.startParser o s).all budget x = some before ∧
        ((g.addRule name added).startParser o s).all budget x = some after) := by
  have part := progressive.of_addRule
  have enough' := (expansionBound_addRule g name added x).trans enough
  have added_between := interspersed_addRule
    (part.finished_derivationParser (o := o) enough' s)
    (progressive.finished_derivationParser (o := o) enough s)
  have all := Results.toList?_eq_some_iff.mpr
    ⟨part.finished_symbolParser (o := o) enough' s, rfl⟩
  have all' := Results.toList?_eq_some_iff.mpr
    ⟨progressive.finished_symbolParser (o := o) enough s, rfl⟩
  refine ⟨part, ?_, _, _, all, all', added_between.sublist, added_between, ?_⟩
  · rw [alternatives?_addRule, if_pos rfl]
  · intro unbounded
    rw [startParser_of_unbounded g s unbounded, startParser_of_unbounded _ s unbounded]
    exact ⟨all, all'⟩

/-- With a rule for the nonterminal that had none, a list may also be one `x` without its sign. Of
the ten parses of `xx` by the extended grammar seven were there before; the others are the fourth,
the eighth and the last one. -/
theorem signedList_keeps_parses :
    ∃ before after : List (ParseTree × Input Char),
      (signedList.startParser {} (.nonterminal "LIST")).all 12 (Input.ofString "xx") =
        some before ∧
      ((signedList.addRule "MISSING" [[.terminal "x"]]).startParser {} (.nonterminal "LIST")).all 12
        (Input.ofString "xx") = some after ∧
      before.length = 7 ∧ after.length = 10 ∧ before.Sublist after ∧
      Interspersed (fun r => r.1.HasNode (.nonterminal "MISSING")) before after := by
  have progressive : (signedList.addRule "MISSING" [[.terminal "x"]]).Progressive Char := by
    refine .of_rank signedListRank fun rule alternatives found => ?_
    by_cases missing : rule = "MISSING"
    · subst missing
      obtain rfl : [[Symbol.terminal "x"]] = alternatives := by
        simpa [alternatives?_addRule, alternatives?_signedList] using found
      simp [leading, Symbol.isTerminal, Alphabet.spell]
    · rw [alternatives?_addRule_of_ne missing] at found
      exact signedList_descends found
  obtain ⟨-, -, before, after, -, -, sublist, added, start⟩ :=
    addRule_keeps_parses progressive {} (.nonterminal "LIST") (Input.ofString "xx") 12 (by decide)
  obtain ⟨all, all'⟩ := start rfl
  have count : (((signedList.startParser {} (.nonterminal "LIST")).all 12
      (Input.ofString "xx")).map List.length) = some 7 := rfl
  have count' : ((((signedList.addRule "MISSING" [[.terminal "x"]]).startParser {}
      (.nonterminal "LIST")).all 12 (Input.ofString "xx")).map List.length) = some 10 := rfl
  rw [all] at count
  rw [all'] at count'
  exact ⟨before, after, all, all', by simpa using count, by simpa using count', sublist, added⟩

end Grammar

end AllParses
