import AllParses.Proofs.Grammar.Declaration
import AllParses.Proofs.Grammar.Termination
import AllParses.Proofs.Parser.Query

/-!
# Alternatives in another order

A result set is `Reordered` by another one when, once it is known to its end, the other one is known
too and holds the same results, each as often, in whatever order. Sequence and choice keep this, and
a choice keeps it also when its branches are permuted. So one expansion passes it on from the
symbols of the alternatives to the nonterminal, and it holds at every depth: no earlier alternative
ever keeps a later one from being tried.
-/
namespace AllParses

namespace Results

variable {α β : Type} {r s t : Results α}

/-- If the first set is known to its end, so is the second one, and it holds the same results up to
their order. -/
def Reordered (r s : Results α) : Prop :=
  r.finished = true → s.finished = true ∧ s.items.Perm r.items

namespace Reordered

theorem refl (r : Results α) : Reordered r r :=
  fun finished => ⟨finished, .refl _⟩

protected theorem map (f : α → β) (reordered : Reordered r s) :
    Reordered (r.map f) (s.map f) := by
  intro finished
  obtain ⟨finished', permuted⟩ := reordered (by simpa using finished)
  refine ⟨by simpa using finished', ?_⟩
  rw [items_map, items_map]
  exact permuted.map f

/-- Every result is carried on, wherever it stands. -/
protected theorem flatMap {f g : α → Results β} (reordered : Reordered r s)
    (each : ∀ a, Reordered (f a) (g a)) : Reordered (r.flatMap f) (s.flatMap g) := by
  intro finished
  rw [finished_flatMap, Bool.and_eq_true, List.all_eq_true] at finished
  obtain ⟨finished', permuted⟩ := reordered finished.1
  have parts : ∀ a ∈ r.items, (g a).finished = true ∧ (g a).items.Perm (f a).items :=
    fun a member => each a (finished.2 a member)
  have parts' : ∀ a ∈ s.items, (g a).finished = true :=
    fun a member => (parts a (permuted.mem_iff.mp member)).1
  constructor
  · rw [finished_flatMap, finished', Bool.true_and, List.all_eq_true]
    exact parts'
  · rw [items_flatMap_of_finished finished.2, items_flatMap_of_finished parts']
    exact permuted.flatMap fun a member => (parts a (permuted.mem_iff.mp member)).2

end Reordered

end Results

open Results (Reordered)

namespace Grammar

section

variable {σ α : Type} {p q : Symbol → Parser σ α} {budget : Nat}

theorem reordered_sequenceOf
    (each : ∀ s x, Reordered ((p s).run budget x) ((q s).run budget x))
    (symbols : Alternative) (x : Input σ) :
    Reordered ((sequenceOf p symbols).run budget x) ((sequenceOf q symbols).run budget x) := by
  induction symbols using List.reverseRecOn with
  | nil => exact .refl _
  | append_singleton symbols s ih =>
    rw [run_sequenceOf_concat, run_sequenceOf_concat]
    exact ih.flatMap fun r => (each s r.2).map _

/-- The branches of a choice may be permuted, and each of them may be reordered in itself. -/
theorem reordered_choiceOf
    (each : ∀ s x, Reordered ((p s).run budget x) ((q s).run budget x))
    {alternatives alternatives' : List Alternative} (permuted : alternatives'.Perm alternatives)
    (x : Input σ) :
    Reordered ((choiceOf p alternatives).run budget x)
      ((choiceOf q alternatives').run budget x) := by
  intro finished
  unfold choiceOf at finished ⊢
  have branches : ∀ symbols ∈ alternatives,
      ((sequenceOf q symbols).run budget x).finished = true ∧
        ((sequenceOf q symbols).run budget x).items.Perm
          ((sequenceOf p symbols).run budget x).items := by
    intro symbols among
    apply reordered_sequenceOf each symbols x
    exact (Parser.finished_anyOf _ _ _).mp finished _ (List.mem_map_of_mem among)
  have finished' : ((Parser.anyOf (alternatives'.map (sequenceOf q))).run budget x).finished =
      true := by
    rw [Parser.finished_anyOf]
    intro branch among
    obtain ⟨symbols, member, rfl⟩ := List.mem_map.mp among
    exact (branches symbols (permuted.mem_iff.mp member)).1
  refine ⟨finished', ?_⟩
  rw [Parser.items_anyOf finished, Parser.items_anyOf finished', List.flatMap_map,
    List.flatMap_map]
  exact permuted.flatMap fun symbols member => (branches symbols (permuted.mem_iff.mp member)).2

end

variable {σ : Type} [Alphabet σ] [DecidableEq σ] {g h : Grammar} {o : Options} {s : Symbol}
  {x : Input σ} {budget : Nat} {f : List Alternative → List Alternative}

/-- Permuted rules reorder the results of every symbol, at every depth. -/
theorem reordered_symbolWithin
    (rules : ∀ name, Option.Rel List.Perm (h.alternatives? name) (g.alternatives? name))
    (depth : Nat) (s : Symbol) (x : Input σ) :
    Reordered ((g.symbolWithin o depth s).run budget x)
      ((h.symbolWithin o depth s).run budget x) := by
  induction depth, s using depth_induction generalizing x with
  | terminal depth name =>
    rw [symbolWithin_terminal, symbolWithin_terminal]
    exact .refl _
  | cut name => exact .refl _
  | expand depth name ih =>
    rw [symbolWithin_succ, symbolWithin_succ]
    have permuted := rules name
    generalize g.alternatives? name = found at permuted
    generalize h.alternatives? name = found' at permuted
    cases permuted with
    | none => exact .refl _
    | some permuted => exact (reordered_choiceOf ih permuted x).map _

theorem reordered_symbolParser
    (rules : ∀ name, Option.Rel List.Perm (h.alternatives? name) (g.alternatives? name))
    (s : Symbol) (x : Input σ) :
    Reordered ((g.symbolParser o s).run budget x) ((h.symbolParser o s).run budget x) :=
  reordered_symbolWithin rules budget s x

theorem Consistent.rel_mapRules (consistent : g.Consistent)
    (permutes : ∀ alternatives, (f alternatives).Perm alternatives) (name : String) :
    Option.Rel List.Perm ((g.mapRules f).alternatives? name) (g.alternatives? name) := by
  rw [consistent.alternatives?_mapRules]
  cases g.alternatives? name with
  | none => exact .none
  | some alternatives => exact .some (permutes alternatives)

end Grammar

/-! ## Answers -/

namespace Parser

variable {σ α : Type} {p q : Parser σ α} {budget : Nat} {x : Input σ} {values values' : List α}

/-- Whether there is a parse of the whole input does not depend on the order of the parses. -/
theorem CompleteParses.fullParse_of_perm (complete : p.CompleteParses budget x values)
    (complete' : q.CompleteParses budget x values') (permuted : values'.Perm values) :
    (∃ v w, p.fullParse budget x = some (.ok v) ∧ q.fullParse budget x = some (.ok w)) ∨
      p.fullParse budget x = some (.error .noFullParse) ∧
        q.fullParse budget x = some (.error .noFullParse) := by
  rw [complete.first, complete'.first]
  cases values with
  | nil =>
    obtain rfl := permuted.eq_nil
    exact .inr ⟨rfl, rfl⟩
  | cons v others =>
    cases values' with
    | nil => cases permuted.symm.eq_nil
    | cons w others' => exact .inl ⟨v, w, rfl, rfl⟩

theorem CompleteParses.isAmbiguous_of_perm (complete : p.CompleteParses budget x values)
    (complete' : q.CompleteParses budget x values') (permuted : values'.Perm values) :
    ∃ b, p.isAmbiguous budget x = some b ∧ q.isAmbiguous budget x = some b := by
  rw [complete.ambiguous, complete'.ambiguous, permuted.length_eq]
  exact ⟨_, rfl, rfl⟩

end Parser

namespace Grammar

variable {σ : Type} [Alphabet σ] [DecidableEq σ] {g : Grammar}
  {f : List Alternative → List Alternative}

/-- The order of the alternatives has an influence on the order of the results only. When the
alternatives of every rule of a progressive grammar are permuted, the results of each symbol on each
input are permuted: the trees and remainders are the same, and each result is there as often as
before. If the number of results is not bounded, then an input has a complete parse after the
permutation exactly if it had one before, and it is ambiguous exactly if it was. -/
theorem mapRules_permutes_results (built : g.Built)
    (permutes : ∀ alternatives, (f alternatives).Perm alternatives)
    (progressive : g.Progressive σ) (o : Options) (s : Symbol) (x : Input σ) (budget : Nat)
    (enough : g.expansionBound x ≤ budget) :
    ∃ before after : List (ParseTree × Input σ),
      (g.symbolParser o s).all budget x = some before ∧
      ((g.mapRules f).symbolParser o s).all budget x = some after ∧
      after.Perm before ∧
      (o.maxResults = none →
        ((∃ t u, (g.startParser o s).fullParse budget x = some (.ok t) ∧
            ((g.mapRules f).startParser o s).fullParse budget x = some (.ok u)) ∨
          (g.startParser o s).fullParse budget x = some (.error .noFullParse) ∧
            ((g.mapRules f).startParser o s).fullParse budget x = some (.error .noFullParse)) ∧
        ∃ b, (g.startParser o s).isAmbiguous budget x = some b ∧
          ((g.mapRules f).startParser o s).isAmbiguous budget x = some b) := by
  have finished := progressive.finished_symbolParser (o := o) enough s
  obtain ⟨finished', permuted⟩ :=
    reordered_symbolParser (built.consistent.rel_mapRules permutes) s x finished
  have all := Results.toList?_eq_some_iff.mpr ⟨finished, rfl⟩
  have all' := Results.toList?_eq_some_iff.mpr ⟨finished', rfl⟩
  refine ⟨_, _, all, all', permuted, fun unbounded => ?_⟩
  rw [startParser_of_unbounded g s unbounded, startParser_of_unbounded _ s unbounded]
  have complete := Parser.completeParses_of_all all
  have complete' := Parser.completeParses_of_all all'
  have values := (permuted.filter fun r => r.2.isEmpty).map Prod.fst
  exact ⟨complete.fullParse_of_perm complete' values, complete.isAmbiguous_of_perm complete' values⟩

/-- A list of one mark without a sign. -/
def unsignedMark : ParseTree :=
  .nonterminal "LIST" [.nonterminal "SIGN" [], .terminal "x", .nonterminal "LIST" []]

/-- With the alternatives in reverse order `x` still has its three parses, but now the one that
derives nothing comes first. Two of them take up all of `x`, before as after, and they are alike. -/
theorem signedList_reversed :
    ∃ before after : List (ParseTree × Input Char),
      (signedList.symbolParser {} (.nonterminal "LIST")).all 6 (Input.ofString "x") =
        some before ∧
      ((signedList.mapRules List.reverse).symbolParser {} (.nonterminal "LIST")).all 6
        (Input.ofString "x") = some after ∧
      after.Perm before ∧
      before.map (fun r => r.1.leaves) = [["x"], ["x"], []] ∧
      after.map (fun r => r.1.leaves) = [[], ["x"], ["x"]] ∧
      (signedList.startParser {} (.nonterminal "LIST")).fullParse 6 (Input.ofString "x") =
        some (.ok unsignedMark) ∧
      ((signedList.mapRules List.reverse).startParser {} (.nonterminal "LIST")).fullParse 6
        (Input.ofString "x") = some (.ok unsignedMark) ∧
      (signedList.startParser {} (.nonterminal "LIST")).isAmbiguous 6 (Input.ofString "x") =
        some true ∧
      ((signedList.mapRules List.reverse).startParser {} (.nonterminal "LIST")).isAmbiguous 6
        (Input.ofString "x") = some true := by
  have built : signedList.Built := .ofRules _
  obtain ⟨before, after, all, all', permuted, answers⟩ :=
    mapRules_permutes_results (f := List.reverse) built List.reverse_perm
      signedList_progressive {} (.nonterminal "LIST") (Input.ofString "x") 6 (by decide)
  have leaves : ((signedList.symbolParser {} (.nonterminal "LIST")).all 6
      (Input.ofString "x")).map (List.map fun r => r.1.leaves) = some [["x"], ["x"], []] := rfl
  have leaves' : (((signedList.mapRules List.reverse).symbolParser {} (.nonterminal "LIST")).all 6
      (Input.ofString "x")).map (List.map fun r => r.1.leaves) = some [[], ["x"], ["x"]] := rfl
  rw [all] at leaves
  rw [all'] at leaves'
  have ambiguous : (signedList.startParser {} (.nonterminal "LIST")).isAmbiguous 6
      (Input.ofString "x") = some true := rfl
  obtain ⟨-, b, same, same'⟩ := answers rfl
  obtain rfl : b = true := Option.some.inj (same.symm.trans ambiguous)
  exact ⟨before, after, all, all', permuted, by simpa using leaves, by simpa using leaves', rfl,
    rfl, same, same'⟩

end Grammar

end AllParses
