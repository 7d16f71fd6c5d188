import AllParses.Parser.Query
import AllParses.Parser.Repeat
import AllParses.Proofs.Input
import AllParses.Proofs.Results
import Mathlib.Order.Filter.AtTopBot.Basic
import Mathlib.Order.Filter.Finite

/-!
# What a parser finally answers

A parser settles on a list of results when every budget from some one on gives exactly this list.
How large that budget must be is of no concern to a caller, so the results of composed parsers are
stated for settled parts: each combinator of the library settles on a list that is computed from
the lists of its parts.

A repetition unfolds once for every occurrence, under a budget that shrinks on the way down.
`SettlesMany` therefore asks for the same runs under every length bound that exceeds the size of the
input; it follows an occurrence that consumes something to a shorter input.
-/
namespace AllParses

namespace Parser

variable {σ α β : Type}

/-- From some budget on, the results of the parser on the input are exactly these, in this order. -/
def Settles (p : Parser σ α) (x : Input σ) (rs : List (α × Input σ)) : Prop :=
  ∀ᶠ budget in Filter.atTop, p.all budget x = some rs

namespace Settles

variable {p : Parser σ α} {q : Parser σ β} {x : Input σ} {rs ss : List (α × Input σ)}

/-- A parser settles on one list at most. -/
theorem unique (one : p.Settles x rs) (other : p.Settles x ss) : rs = ss := by
  obtain ⟨budget, first, second⟩ := (one.and other).exists
  exact Option.some.inj (first.symm.trans second)

theorem of_run (all : ∀ budget, (p.run budget x).toList? = some rs) : p.Settles x rs :=
  .of_forall all

/-- Whether the call of a parser comes back has no part in its results. -/
theorem congr_run {p' : Parser σ α} (same : p.run = p'.run) : p.Settles x rs ↔ p'.Settles x rs := by
  unfold Settles all
  rw [same]

protected theorem succeed (v : α) (x : Input σ) : (succeed v).Settles x [(v, x)] :=
  of_run fun _ => rfl

protected theorem map (f : α → β) (settles : p.Settles x rs) :
    (p.map f).Settles x (rs.map fun r => (f r.1, r.2)) :=
  settles.mono fun _ all => Results.toList?_map _ all

protected theorem afterLayout [Alphabet σ] (settles : p.Settles x.skipLayout rs) :
    p.afterLayout.Settles x rs :=
  settles

protected theorem either {p' : Parser σ α} (first : p.Settles x rs) (second : p'.Settles x ss) :
    (p.either p').Settles x (rs ++ ss) := by
  filter_upwards [first, second] with budget all all'
  exact Results.toList?_append all all'

/-- A sequence continues every result of its first parser. -/
protected theorem andThen (first : p.Settles x rs) (next : α × Input σ → List (β × Input σ))
    (each : ∀ r ∈ rs, q.Settles r.2 (next r)) :
    (p.andThen q).Settles x
      (rs.flatMap fun r => (next r).map fun s => ((r.1, s.1), s.2)) := by
  have together : ∀ᶠ budget in Filter.atTop, ∀ r ∈ rs, q.all budget r.2 = some (next r) :=
    (Filter.eventually_all_finite rs.finite_toSet).mpr each
  filter_upwards [first, together] with budget all alls
  exact Results.toList?_flatMap all fun r member => Results.toList?_map _ (alls r member)

protected theorem thenSkip (first : p.Settles x rs) (next : α × Input σ → List (β × Input σ))
    (each : ∀ r ∈ rs, q.Settles r.2 (next r)) :
    (p.thenSkip q).Settles x (rs.flatMap fun r => (next r).map fun s => (r.1, s.2)) := by
  unfold thenSkip
  have both := (first.andThen next each).map Prod.fst
  simpa only [List.map_flatMap, List.map_map, Function.comp_def] using both

protected theorem skipThen (first : p.Settles x rs) (next : α × Input σ → List (β × Input σ))
    (each : ∀ r ∈ rs, q.Settles r.2 (next r)) :
    (p.skipThen q).Settles x (rs.flatMap next) := by
  unfold skipThen
  have both := (first.andThen next each).map Prod.snd
  simpa only [List.map_flatMap, List.map_map, Function.comp_def, List.map_id'] using both

theorem andThen_single {v : α} {mid : Input σ} {ss : List (β × Input σ)}
    (first : p.Settles x [(v, mid)]) (second : q.Settles mid ss) :
    (p.andThen q).Settles x (ss.map fun s => ((v, s.1), s.2)) := by
  have both := first.andThen (fun _ => ss) (by simpa using second)
  rwa [List.flatMap_singleton] at both

theorem andThen_nil (refused : p.Settles x []) : (p.andThen q).Settles x [] :=
  refused.andThen (fun _ => []) (by simp)

theorem skipThen_single {v : α} {mid : Input σ} {ss : List (β × Input σ)}
    (first : p.Settles x [(v, mid)]) (second : q.Settles mid ss) : (p.skipThen q).Settles x ss := by
  have both := first.skipThen (fun _ => ss) (by simpa using second)
  rwa [List.flatMap_singleton] at both

theorem skipThen_nil (refused : p.Settles x []) : (p.skipThen q).Settles x [] :=
  refused.skipThen (fun _ => []) (by simp)

/-- When the second parser fails behind all results but the first, only the first one counts. -/
theorem thenSkip_first {v : α} {mid : Input σ} {ss : List (β × Input σ)}
    (first : p.Settles x ((v, mid) :: rs)) (second : q.Settles mid ss)
    (dead : ∀ r ∈ rs, q.Settles r.2 []) : (p.thenSkip q).Settles x (ss.map fun s => (v, s.2)) := by
  classical
  have each : ∀ r ∈ (v, mid) :: rs, q.Settles r.2 (if r.2 = mid then ss else []) := by
    intro r member
    split
    case isTrue same => exact same ▸ second
    case isFalse other =>
      rcases List.mem_cons.mp member with rfl | later
      · exact absurd rfl other
      · exact dead r later
  have nothing :
      rs.flatMap (fun r => (if r.2 = mid then ss else []).map fun s => (r.1, s.2)) = [] := by
    rw [List.flatMap_eq_nil_iff]
    intro r member
    split
    case isTrue same =>
      rw [second.unique (same ▸ dead r member)]
      rfl
    case isFalse => rfl
  -- Behind the first result's rest the second parser has `ss`; a later result with the same rest can
  -- only be there when `ss` is empty.
  have both := first.thenSkip _ each
  rwa [List.flatMap_cons, nothing, List.append_nil, if_pos rfl] at both

/-- The second parser is not asked when the first one has a result. -/
protected theorem orElse {p' : Parser σ α} {r : α × Input σ} (settles : p.Settles x (r :: rs)) :
    (p.orElse p').Settles x (r :: rs) := by
  filter_upwards [settles] with budget all
  have held := (Results.toList?_eq_some_iff.mp all).2
  rw [Parser.all, run_orElse (by simp [held])]
  exact all

theorem orElse_nil {p' : Parser σ α} (refused : p.Settles x []) (settles : p'.Settles x rs) :
    (p.orElse p').Settles x rs := by
  filter_upwards [refused, settles] with budget none all
  unfold Parser.all orElse at *
  cases shape : p.run budget x with
  | done => simpa [shape] using all
  | cut => simp [shape, Results.toList?] at none
  | item v tail => simp [shape, Results.toList?] at none

protected theorem full (settles : p.Settles x rs) :
    p.full.Settles x (rs.filter fun r => r.2.isEmpty) :=
  settles.mono fun _ all => Results.toList?_filter _ all

theorem fullParse_ok {v : α} {rest : Input σ} (full : p.full.Settles x ((v, rest) :: rs)) :
    ∀ᶠ budget in Filter.atTop, p.fullParse budget x = some (.ok v) := by
  filter_upwards [full] with budget all
  rw [fullParse, Results.head?_of_toList? all]
  rfl

theorem fullParse_error (full : p.full.Settles x []) :
    ∀ᶠ budget in Filter.atTop, p.fullParse budget x = some (.error .noFullParse) := by
  filter_upwards [full] with budget all
  rw [fullParse, Results.head?_of_toList? all]
  rfl

end Settles

section Following

variable {p : Parser σ α} {x rest : Input σ} {steps : List (α × Input σ)}

/-- On the input the parser fails, or it has one result and that consumes something. -/
def SharpAt (p : Parser σ α) (x : Input σ) : Prop :=
  p.Settles x [] ∨ ∃ v rest, p.Settles x [(v, rest)] ∧ rest.ProperSuffix x

/-- A parser with at most one result at a time is followed from `x` on until it fails: `steps` are
its results on the way, and `rest` is where it fails. -/
inductive Iterates (p : Parser σ α) : Input σ → List (α × Input σ) → Input σ → Prop where
  | stop {x : Input σ} (refused : p.Settles x []) : Iterates p x [] x
  | step {x mid rest : Input σ} {v : α} {steps : List (α × Input σ)}
    (read : p.Settles x [(v, mid)]) (proper : mid.ProperSuffix x)
    (later : Iterates p mid steps rest) : Iterates p x ((v, mid) :: steps) rest

/-- The beginnings of a sequence of steps from `x` on, the longest first. -/
def beginnings : Input σ → List (α × Input σ) → List (List α × Input σ)
  | x, [] => [([], x)]
  | x, (v, mid) :: steps =>
    (beginnings mid steps).map (fun run => (v :: run.1, run.2)) ++ [([], x)]

/-- Of `n` steps the beginnings have `n`, `n - 1` and so on down to no values. -/
theorem beginnings_values (x : Input σ) (steps : List (α × Input σ)) :
    (beginnings x steps).map Prod.fst = (List.range (steps.length + 1)).map fun k =>
      (steps.map Prod.fst).take (steps.length - k) := by
  induction steps generalizing x with
  | nil => rfl
  | cons step steps ih =>
    obtain ⟨v, mid⟩ := step
    have longer : (beginnings mid steps).map (fun run => v :: run.1) =
        ((beginnings mid steps).map Prod.fst).map (v :: ·) := by
      rw [List.map_map]
      rfl
    rw [beginnings, List.map_append, List.map_map, List.length_cons, List.range_succ,
      List.map_append]
    simp only [Function.comp_def]
    rw [longer, ih, List.map_map]
    congr 1
    · refine List.map_congr_left fun k member => ?_
      have bound : k < steps.length + 1 := List.mem_range.mp member
      rw [Nat.succ_sub (Nat.le_of_lt_succ bound)]
      rfl
    · simp

/-- A parser that is sharp everywhere can be followed from anywhere. -/
theorem exists_iterates (sharp : ∀ x, p.SharpAt x) (x : Input σ) :
    ∃ steps rest, p.Iterates x steps rest := by
  induction size : x.size using Nat.strongRecOn generalizing x with
  | _ n ih =>
    rcases sharp x with refused | ⟨v, mid, read, proper⟩
    · exact ⟨[], x, .stop refused⟩
    · obtain ⟨steps, rest, later⟩ := ih mid.size (size ▸ proper.shorter) mid rfl
      exact ⟨(v, mid) :: steps, rest, .step read proper later⟩

namespace Iterates

theorem unique {rest' : Input σ} {steps' : List (α × Input σ)} (one : p.Iterates x steps rest)
    (other : p.Iterates x steps' rest') : steps = steps' ∧ rest = rest' := by
  induction one generalizing steps' rest' with
  | stop refused =>
    cases other with
    | stop => exact ⟨rfl, rfl⟩
    | step read => simpa using refused.unique read
  | step read proper later ih =>
    cases other with
    | stop refused => simpa using read.unique refused
    | step read' _ later' =>
      obtain ⟨rfl, rfl⟩ := by simpa using read.unique read'
      obtain ⟨rfl, rfl⟩ := ih later'
      exact ⟨rfl, rfl⟩

theorem refuses (iterates : p.Iterates x steps rest) : p.Settles rest [] := by
  induction iterates with
  | stop refused => exact refused
  | step read proper later ih => exact ih

/-- The first beginning is the whole way. From where any other one ends the parser goes on. -/
theorem beginnings_eq (iterates : p.Iterates x steps rest) :
    ∃ partials, beginnings x steps = (steps.map Prod.fst, rest) :: partials ∧
      ∀ run ∈ partials, ∃ v mid, p.Settles run.2 [(v, mid)] := by
  induction iterates with
  | stop refused => exact ⟨[], rfl, by simp⟩
  | @step x mid rest v steps read proper later ih =>
    obtain ⟨partials, whole, go_on⟩ := ih
    refine ⟨partials.map (fun run => (v :: run.1, run.2)) ++ [([], x)], ?_, ?_⟩
    · rw [beginnings, whole]
      rfl
    · intro run member
      rcases List.mem_append.mp member with longer | empty
      · obtain ⟨run', among, rfl⟩ := List.mem_map.mp longer
        exact go_on run' among
      · rw [List.mem_singleton.mp empty]
        exact ⟨v, mid, read⟩

/-- Every beginning ends at a suffix of the input. -/
theorem suffix_of_mem (iterates : p.Iterates x steps rest) :
    ∀ run ∈ beginnings x steps, run.2.symbols <:+ x.symbols := by
  induction iterates with
  | stop refused => simp [beginnings]
  | @step x mid rest v steps read proper later ih =>
    intro run member
    rcases List.mem_append.mp member with longer | empty
    · obtain ⟨run', among, rfl⟩ := List.mem_map.mp longer
      exact (ih run' among).trans proper.suffix
    · rw [List.mem_singleton.mp empty]

theorem suffix (iterates : p.Iterates x steps rest) : rest.symbols <:+ x.symbols := by
  obtain ⟨partials, whole, -⟩ := iterates.beginnings_eq
  exact iterates.suffix_of_mem (_, rest) (whole ▸ List.mem_cons_self)

end Iterates

end Following

section Repetition

variable [BEq σ] {p : Parser σ α} {x : Input σ}

/-- The runs of occurrences from `x` on, the empty run last, are exactly these: from some budget on,
and however long runs may be. -/
def SettlesMany (p : Parser σ α) (x : Input σ) (runs : List (List α × Input σ)) : Prop :=
  ∀ᶠ budget in Filter.atTop, ∀ steps, x.size < steps →
    ((p.runsFrom budget steps x).append fun _ => .single ([], x)).toList? = some runs

theorem SettlesMany.many1 {runs : List (List α × Input σ)}
    (settles : p.SettlesMany x (runs ++ [([], x)])) : p.many1.Settles x runs := by
  filter_upwards [settles, Filter.eventually_gt_atTop x.size] with budget all enough
  obtain ⟨finished, items⟩ := Results.toList?_eq_some_iff.mp (all budget enough)
  rw [Results.finished_append, Bool.and_eq_true] at finished
  rw [Results.items_append_of_finished finished.1] at items
  exact Results.toList?_eq_some_iff.mpr ⟨finished.1, List.append_cancel_right items⟩

theorem SettlesMany.settles {runs : List (List α × Input σ)} (settles : p.SettlesMany x runs) :
    p.many.Settles x runs := by
  filter_upwards [settles, Filter.eventually_gt_atTop x.size] with budget all enough
  exact all budget enough

/-- A result that leaves what equals the input ends its run. Every other one is continued by the runs
from its rest on. -/
theorem Settles.many_of_shorter {rs : List (α × Input σ)} (first : p.Settles x rs)
    (more : α × Input σ → List (List α × Input σ))
    (each : ∀ r ∈ rs, ¬ r.2 == x → r.2.size < x.size ∧ p.SettlesMany r.2 (more r)) :
    p.SettlesMany x ((rs.flatMap fun r =>
      if r.2 == x then [([r.1], r.2)] else (more r).map fun run => (r.1 :: run.1, run.2)) ++
        [([], x)]) := by
  have together : ∀ᶠ budget in Filter.atTop, ∀ r ∈ rs, ¬ r.2 == x → ∀ steps, r.2.size < steps →
      ((p.runsFrom budget steps r.2).append fun _ => .single ([], r.2)).toList? =
        some (more r) := by
    refine (Filter.eventually_all_finite rs.finite_toSet).mpr fun r member => ?_
    by_cases stays : r.2 == x
    · exact .of_forall fun _ moves => absurd stays moves
    · exact (each r member stays).2.mono fun _ all _ => all
  filter_upwards [first, together] with budget all alls steps enough
  obtain ⟨steps, rfl⟩ := Nat.exists_eq_add_one_of_ne_zero (Nat.ne_of_gt (Nat.zero_lt_of_lt enough))
  -- The bound on the length shrinks by one, and by at least one symbol so does the input.
  rw [runsFrom_succ]
  refine Results.toList?_append (Results.toList?_flatMap all fun r member => ?_) rfl
  obtain ⟨v, mid⟩ := r
  dsimp only
  split
  case isTrue => rfl
  case isFalse moves =>
    have shorter : mid.size < steps := (each _ member moves).1.trans_le (Nat.le_of_lt_succ enough)
    exact Results.toList?_map _ (alls _ member moves steps shorter)

/-- Where every occurrence consumes something, each result is continued by the runs from its rest
on. -/
theorem Settles.many {rs : List (α × Input σ)} (first : p.Settles x rs)
    (more : α × Input σ → List (List α × Input σ))
    (each : ∀ r ∈ rs, r.2.ProperSuffix x ∧ p.SettlesMany r.2 (more r)) :
    p.SettlesMany x
      ((rs.flatMap fun r => (more r).map fun run => (r.1 :: run.1, run.2)) ++ [([], x)]) := by
  have runs := first.many_of_shorter more fun r member _ =>
    ⟨(each r member).1.shorter, (each r member).2⟩
  have other : ∀ r ∈ rs, ¬ r.2 == x := fun r member =>
    Bool.eq_false_iff.mp (Input.beq_eq_false_of_shorter (each r member).1.shorter)
  rwa [List.flatMap_congr fun r member => if_neg (other r member)] at runs

/-- No occurrence at all is always one of the results. -/
theorem Settles.nil_mem_many {runs : List (List α × Input σ)} (settles : p.many.Settles x runs) :
    ([], x) ∈ runs := by
  obtain ⟨budget, all⟩ := settles.exists
  obtain ⟨finished, rfl⟩ := Results.toList?_eq_some_iff.mp all
  rw [run_many] at finished ⊢
  rw [Results.finished_append, Bool.and_eq_true] at finished
  rw [Results.items_append_of_finished finished.1]
  simp

theorem Settles.many_nil (refused : p.Settles x []) : p.SettlesMany x [([], x)] :=
  refused.many (fun _ => []) (by simp)

/-- Repeating a parser gives the beginnings of the way that it takes when it is followed. -/
theorem Iterates.settlesMany {rest : Input σ} {steps : List (α × Input σ)}
    (iterates : p.Iterates x steps rest) : p.SettlesMany x (beginnings x steps) := by
  induction iterates with
  | stop refused => exact refused.many_nil
  | @step x mid rest v steps read proper later ih =>
    have runs := read.many (fun _ => beginnings mid steps) (by simpa using ⟨proper, ih⟩)
    simpa [beginnings] using runs

end Repetition

end Parser

end AllParses
