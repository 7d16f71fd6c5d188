import AllParses.Proofs.Parser.Runs
import Mathlib.Algebra.GroupWithZero.Nat
import Mathlib.Data.List.Flatten
import Mathlib.Data.List.Perm.Basic

/-!
# The laws of composition

Choice is associative with failure as its unit, sequence is associative up to the nesting of the
pairs with success as its unit up to the value that is dropped, sequence distributes over a choice
on its left, and applying a function commutes with both. These are equations between parsers, so
they hold under every budget and of endless and of cut result sets too, with the results in one and
the same order. Where something is put in front that has its results at once, the equation is between
the results (`run`): the call of the composed parser comes back, though that of the parser behind may
not.

A choice on the right of a sequence is different: its branches are interleaved, result by result of
the first parser. Only for result sets that are known to their end the two sides can be compared, and
there they are permutations of each other.
-/
namespace AllParses

namespace Results

variable {α β : Type}

@[simp] theorem map_id' (r : Results α) : (r.map fun a => a) = r := by
  induction r with
  | done => rfl
  | cut => rfl
  | item a t ih =>
    simp only [map]
    congr 1
    funext u
    exact ih u

/-- Continuing every result by one result is applying a function. -/
theorem flatMap_single (f : α → β) (r : Results α) : (r.flatMap fun a => single (f a)) = r.map f := by
  induction r with
  | done => rfl
  | cut => rfl
  | item a t ih =>
    simp only [flatMap, map]
    change item (f a) _ = _
    congr 1
    funext u
    exact ih u

theorem single_flatMap (a : α) (f : α → Results β) : (single a).flatMap f = f a :=
  append_done (f a)

end Results

namespace Parser

variable {σ α β γ : Type}

/-! ## Choice -/

/-- The parsers of a longer list are tried one list after the other. -/
theorem run_anyOf_append (ps qs : List (Parser σ α)) :
    (anyOf (ps ++ qs)).run = ((anyOf ps).either (anyOf qs)).run := by
  induction ps with
  | nil => exact (run_fail_either (anyOf qs)).symm
  | cons p ps ih =>
    rw [List.cons_append, anyOf_cons, anyOf_cons, either_assoc]
    funext budget x
    rw [run_either, ih]
    rfl

/-! ## Sequence -/

theorem andThen_assoc (p : Parser σ α) (q : Parser σ β) (r : Parser σ γ) :
    ((p.andThen q).andThen r).map (fun v => (v.1.1, v.1.2, v.2)) = p.andThen (q.andThen r) := by
  ext budget x
  case starts => rfl
  case run =>
    simp only [run_map, run_andThen, Results.flatMap_flatMap, Results.map_flatMap,
      Results.flatMap_map, Results.map_map]

theorem run_succeed_skipThen (u : β) (p : Parser σ α) :
    (((succeed u).andThen p).map Prod.snd).run = p.run := by
  funext budget x
  simp only [run_map, run_andThen, run_succeed, Results.single_flatMap, Results.map_map,
    Results.map_id']

theorem thenSkip_succeed (p : Parser σ α) (u : β) : (p.andThen (succeed u)).map Prod.fst = p := by
  ext budget x
  case starts => rfl
  case run =>
    simp only [run_map, run_andThen, run_succeed, Results.map_flatMap]
    exact (Results.flatMap_single _ _).trans (Results.map_id' _)

theorem either_andThen (p q : Parser σ α) (r : Parser σ β) :
    (p.either q).andThen r = (p.andThen r).either (q.andThen r) := by
  ext budget x
  case starts => rfl
  case run => exact Results.flatMap_append _ _ _

theorem fail_andThen (p : Parser σ β) : (fail : Parser σ α).andThen p = fail := rfl

/-! ## Applying a function -/

theorem map_andThen (f : α → γ) (p : Parser σ α) (q : Parser σ β) :
    (p.map f).andThen q = (p.andThen q).map (Prod.map f id) := by
  ext budget x
  case starts => rfl
  case run =>
    simp only [run_map, run_andThen, Results.map_flatMap, Results.flatMap_map, Results.map_map]
    rfl

theorem andThen_map (p : Parser σ α) (f : β → γ) (q : Parser σ β) :
    p.andThen (q.map f) = (p.andThen q).map (Prod.map id f) := by
  ext budget x
  case starts => rfl
  case run =>
    simp only [run_map, run_andThen, Results.map_flatMap, Results.map_map]
    rfl

/-! ## Result sets that are known to their end -/

section Finite

variable {p : Parser σ α} {q q' : Parser σ β} {x : Input σ} {rs : List (α × Input σ)}
  {next next' : α × Input σ → List (β × Input σ)}

/-- A sequence with a choice on its right takes the branches of the choice in turn for every result,
and a choice of two sequences takes all results with one branch first. -/
theorem andThen_either_perm (first : p.Settles x rs) (each : ∀ r ∈ rs, q.Settles r.2 (next r))
    (each' : ∀ r ∈ rs, q'.Settles r.2 (next' r)) :
    ∃ inner outer, (p.andThen (q.either q')).Settles x inner ∧
      ((p.andThen q).either (p.andThen q')).Settles x outer ∧ inner.Perm outer := by
  have branches : ∀ r ∈ rs, (q.either q').Settles r.2 (next r ++ next' r) :=
    fun r member => (each r member).either (each' r member)
  refine ⟨_, _, first.andThen _ branches, (first.andThen _ each).either (first.andThen _ each'), ?_⟩
  simp only [List.map_append]
  exact (List.flatMap_append_perm rs _ _).symm

/-- Every result of the first parser counts as often as the second parser has results behind it. -/
theorem length_andThen (first : p.Settles x rs) (each : ∀ r ∈ rs, q.Settles r.2 (next r)) :
    ∃ pairs, (p.andThen q).Settles x pairs ∧
      pairs.length = (rs.map fun r => (next r).length).sum := by
  refine ⟨_, first.andThen next each, ?_⟩
  rw [List.length_flatMap]
  simp only [List.length_map]

end Finite

/-- The laws of composition. Under every budget, on every input and however far the result sets go, the
results are the same and in the same order, and except where only `run` is compared the parsers are the
same. A choice on the right of a sequence can only be compared where all results are known; then it may
be drawn out of the sequence up to the order of the results, and the results of a sequence are counted
by the sum of the numbers of results behind each result of its first parser. -/
theorem composition_laws :
    (∀ p q r : Parser σ α, (p.either q).either r = p.either (q.either r)) ∧
    (∀ p : Parser σ α, p.either fail = p ∧ (fail.either p).run = p.run) ∧
    (∀ ps qs : List (Parser σ α), (anyOf (ps ++ qs)).run = ((anyOf ps).either (anyOf qs)).run) ∧
    (∀ (p : Parser σ α) (q : Parser σ β) (r : Parser σ γ),
      ((p.andThen q).andThen r).map (fun v => (v.1.1, v.1.2, v.2)) = p.andThen (q.andThen r)) ∧
    (∀ (u : β) (p : Parser σ α), (((succeed u).andThen p).map Prod.snd).run = p.run ∧
      (p.andThen (succeed u)).map Prod.fst = p) ∧
    (∀ (p q : Parser σ α) (r : Parser σ β),
      (p.either q).andThen r = (p.andThen r).either (q.andThen r)) ∧
    (∀ p : Parser σ β, (fail : Parser σ α).andThen p = fail) ∧
    (∀ (f : β → γ) (g : α → β) (p : Parser σ α), (p.map g).map f = p.map (f ∘ g)) ∧
    (∀ (f : α → β) (p q : Parser σ α), (p.either q).map f = (p.map f).either (q.map f)) ∧
    (∀ (f : α → γ) (p : Parser σ α) (q : Parser σ β),
      (p.map f).andThen q = (p.andThen q).map (Prod.map f id)) ∧
    (∀ (f : β → γ) (p : Parser σ α) (q : Parser σ β),
      p.andThen (q.map f) = (p.andThen q).map (Prod.map id f)) ∧
    (∀ (p : Parser σ α) (q q' : Parser σ β) (x : Input σ) (rs : List (α × Input σ))
      (next next' : α × Input σ → List (β × Input σ)), p.Settles x rs →
      (∀ r ∈ rs, q.Settles r.2 (next r)) → (∀ r ∈ rs, q'.Settles r.2 (next' r)) →
      ∃ inner outer, (p.andThen (q.either q')).Settles x inner ∧
        ((p.andThen q).either (p.andThen q')).Settles x outer ∧ inner.Perm outer) ∧
    ∀ (p : Parser σ α) (q : Parser σ β) (x : Input σ) (rs : List (α × Input σ))
      (next : α × Input σ → List (β × Input σ)), p.Settles x rs →
      (∀ r ∈ rs, q.Settles r.2 (next r)) →
      ∃ pairs, (p.andThen q).Settles x pairs ∧
        pairs.length = (rs.map fun r => (next r).length).sum := by
  refine ⟨either_assoc, fun p => ⟨either_fail p, run_fail_either p⟩, run_anyOf_append, andThen_assoc,
    fun u p => ⟨run_succeed_skipThen u p, thenSkip_succeed p u⟩, either_andThen, fail_andThen, map_map,
    map_either, map_andThen, fun f p q => andThen_map p f q, ?permutation, ?count⟩
  case permutation => exact fun p q q' x rs next next' => andThen_either_perm
  case count => exact fun p q x rs next => length_andThen

/-- The letter `a` may be there or be left out, and behind it there is another `a` or nothing at all.
The two sides of the law for a choice on the right have the same three results, in different orders. -/
theorem optional_letter_laws :
    ∃ inner outer pairs, (symbol 'a').optional.Settles (.ofString "a")
        [(some 'a', .ofString ""), (none, .ofString "a")] ∧
      ((symbol 'a').optional.andThen ((symbol 'a').either (succeed 'z'))).Settles
        (.ofString "a") inner ∧
      (((symbol 'a').optional.andThen (symbol 'a')).either
        ((symbol 'a').optional.andThen (succeed 'z'))).Settles (.ofString "a") outer ∧
      inner.Perm outer ∧
      inner.map Prod.fst = [(some 'a', 'z'), (none, 'a'), (none, 'z')] ∧
      outer.map Prod.fst = [(none, 'a'), (some 'a', 'z'), (none, 'z')] ∧
      ((symbol 'a').optional.andThen (symbol 'a')).Settles (.ofString "a") pairs ∧
      pairs.length = 0 + 1 := by
  obtain ⟨-, -, -, -, -, -, -, -, -, -, -, permutation, count⟩ :=
    @composition_laws Char (Option Char) Char Unit
  have letter : ∀ y : Input Char, (symbol 'a').Settles y
      ((y.head?.filter fun d => d = 'a').map fun c => (c, y.tail)).toList :=
    fun y => .of_run fun _ => Results.toList?_ofOption _
  have first : (symbol 'a').optional.Settles (.ofString "a")
      [(some 'a', .ofString ""), (none, .ofString "a")] :=
    ((letter (.ofString "a")).map some).either (.succeed none _)
  obtain ⟨inner, outer, settles, settles', same⟩ := permutation _ _ (succeed 'z') _ _ _ _ first
    (fun r _ => letter r.2) fun r _ => .succeed 'z' r.2
  obtain ⟨pairs, counted, length⟩ := count _ _ _ _ _ first fun r _ => letter r.2
  have steady : (symbol 'a').optional.Steady := ((Steady.symbol 'a').map some).either (.succeed none)
  have known : ((symbol 'a').optional.andThen ((symbol 'a').either (succeed 'z'))).all 0
      (.ofString "a") = some [((some 'a', 'z'), .ofString ""), ((none, 'a'), .ofString ""),
        ((none, 'z'), .ofString "a")] := rfl
  have known' : (((symbol 'a').optional.andThen (symbol 'a')).either
      ((symbol 'a').optional.andThen (succeed 'z'))).all 0 (.ofString "a") =
        some [((none, 'a'), .ofString ""), ((some 'a', 'z'), .ofString ""),
          ((none, 'z'), .ofString "a")] := rfl
  have found := settles.unique
    ((steady.andThen ((Steady.symbol 'a').either (.succeed 'z'))).settles known)
  have found' := settles'.unique
    (((steady.andThen (.symbol 'a')).either (steady.andThen (.succeed 'z'))).settles known')
  exact ⟨inner, outer, pairs, first, settles, settles', same, by rw [found]; rfl,
    by rw [found']; rfl, counted, length⟩

end Parser

end AllParses
