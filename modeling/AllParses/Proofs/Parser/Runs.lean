import AllParses.Proofs.Grammar.Derivation
import AllParses.Proofs.Parser.Settled
import AllParses.Proofs.Parser.Steady
import AllParses.Proofs.Parser.Suffix

/-!
# The runs of a repetition

A repetition may take any of the results at every step, it may stop after any step, and it must stop
behind a step that consumes nothing. Such a way through the input is a `Run`: `IsRun` says which
runs there are, and `runsWithin` lists those of a bounded length in the order of backtracking.

Whether a step has consumed something is seen by comparing what it leaves with what was there. A step
that consumes nothing is not seen to do so where an input differs from itself, and then it is repeated
without end. So a repetition has an answer exactly if nowhere on the way this happens (`SeesStays`).

* `mem_runsWithin_iff`: the list has all runs of that length and no others;
* `pairwise_runsWithin`: a run comes behind its extensions, and otherwise the first choice that
  differs counts, so no run is in the list twice;
* `settlesMany_runsWithin`: a repetition gives the values of these runs, one by one;
* `seesStays_of_settles`: what it gives is not known to its end otherwise.

The first three are inductions on the bound. A bound that exceeds the size of the input leaves no run
out, since every step but the last one takes something away. The last one follows the run to the place
where a step is taken for another one.
-/
namespace AllParses

namespace Parser

open AllParses.Derivation (Precedes)

variable {σ α : Type}

/-- One way through a repetition: the results that were chosen, their values, and what is left. -/
structure Run (σ α : Type) where
  /-- For every step the index of its result. -/
  choices : List Nat
  /-- The values that were collected. -/
  values : List α
  /-- What is left of the input. -/
  rest : Input σ

namespace Run

/-- The run without steps. -/
def stop (x : Input σ) : Run σ α :=
  ⟨[], [], x⟩

/-- One more step in front. -/
def cons (i : Nat) (v : α) (run : Run σ α) : Run σ α :=
  ⟨i :: run.choices, v :: run.values, run.rest⟩

/-- What a repetition gives for the run. -/
def outcome (run : Run σ α) : List α × Input σ :=
  (run.values, run.rest)

end Run

/-- A run from `x` on takes at every step one of the results that `results` has for what is left
there. Every step but possibly the last one consumes something. -/
inductive IsRun (results : Input σ → List (α × Input σ)) : Input σ → Run σ α → Prop where
  | stop (x : Input σ) : IsRun results x (.stop x)
  | step {x mid : Input σ} {i : Nat} {v : α} {run : Run σ α}
    (chosen : (results x)[i]? = some (v, mid)) (moves : run.choices ≠ [] → mid ≠ x)
    (later : IsRun results mid run) : IsRun results x (run.cons i v)

theorem IsRun.eq_stop {results : Input σ → List (α × Input σ)} {x : Input σ} {run : Run σ α}
    (isRun : IsRun results x run) (ended : run.choices = []) : run = .stop x := by
  cases isRun with
  | stop => rfl
  | step => cases ended

theorem IsRun.choices_eq_nil_iff {results : Input σ → List (α × Input σ)} {x : Input σ}
    {run : Run σ α} (isRun : IsRun results x run) : run.choices = [] ↔ run.values = [] := by
  cases isRun with
  | stop => simp [Run.stop]
  | step => simp [Run.cons]

/-- A run takes the suffixes that the results leave. -/
theorem IsRun.suffix {results : Input σ → List (α × Input σ)} {x : Input σ} {run : Run σ α}
    (leaves : ∀ y, ∀ r ∈ results y, r.2.symbols <:+ y.symbols) (isRun : IsRun results x run) :
    run.rest.symbols <:+ x.symbols := by
  induction isRun with
  | stop x => exact List.suffix_rfl
  | step chosen moves later ih => exact ih.trans (leaves _ _ (List.mem_of_getElem? chosen))

/-! ## Steps that consume nothing -/

/-- Wherever a run gets, a result that consumes nothing is seen to do so. -/
def SeesStays [BEq σ] (results : Input σ → List (α × Input σ)) (x : Input σ) : Prop :=
  ∀ run, IsRun results x run → ∀ v, (v, run.rest) ∈ results run.rest → (run.rest == run.rest) = true

namespace SeesStays

variable [BEq σ] {results : Input σ → List (α × Input σ)} {x : Input σ}

theorem of_refl [ReflBEq σ] : SeesStays results x :=
  fun _ _ _ _ => BEq.rfl

/-- What is left of an input that equals itself equals itself. -/
theorem of_self (leaves : ∀ y, ∀ r ∈ results y, r.2.symbols <:+ y.symbols)
    (self : (x == x) = true) : SeesStays results x :=
  fun _ isRun _ _ => Input.beq_self_of_suffix self (isRun.suffix leaves)

theorem moves (sees : SeesStays results x) {r : α × Input σ} (member : r ∈ results x)
    (differs : ¬ r.2 == x) : r.2 ≠ x := by
  obtain ⟨v, mid⟩ := r
  rintro rfl
  exact differs (sees (.stop mid) (.stop mid) v member)

theorem behind (sees : SeesStays results x) {i : Nat} {v : α} {mid : Input σ}
    (chosen : (results x)[i]? = some (v, mid)) (moves : mid ≠ x) : SeesStays results mid :=
  fun run isRun => sees (run.cons i v) (.step chosen (fun _ => moves) isRun)

end SeesStays

/-! ## The order of backtracking -/

/-- The first list extends the second one, or it has the smaller entry where they first differ. -/
def Before (u v : List Nat) : Prop :=
  (∃ more, more ≠ [] ∧ u = v ++ more) ∨ Precedes u v

namespace Before

variable {i j : Nat} {u v : List Nat}

theorem cons_nil (i : Nat) (u : List Nat) : Before (i :: u) [] :=
  .inl ⟨i :: u, List.cons_ne_nil i u, rfl⟩

theorem of_lt (earlier : i < j) (u v : List Nat) : Before (i :: u) (j :: v) :=
  .inr (.head earlier u v)

theorem cons (i : Nat) (before : Before u v) : Before (i :: u) (i :: v) := by
  rcases before with ⟨more, longer, rfl⟩ | earlier
  · exact .inl ⟨more, longer, rfl⟩
  · exact .inr (.tail i earlier)

theorem ne (before : Before u v) : u ≠ v := by
  rintro rfl
  rcases before with ⟨more, longer, same⟩ | earlier
  · simp [longer] at same
  · exact List.lt_irrefl _ earlier.lt

end Before

/-! ## All runs up to a length -/

section

variable [BEq σ]

/-- The runs that begin with one of the results `rs`. A result that leaves what equals `x` ends its run,
any other one is followed by the runs that `more` has for its rest. -/
def continued (x : Input σ) (more : Input σ → List (Run σ α)) (rs : List (α × Input σ)) :
    List (Run σ α) :=
  (rs.mapIdx fun i r =>
    if r.2 == x then [(Run.stop r.2).cons i r.1] else (more r.2).map (Run.cons i r.1)).flatten

/-- The runs of at most `n` steps from `x` on, in the order of backtracking. -/
def runsWithin (results : Input σ → List (α × Input σ)) : (n : Nat) → Input σ → List (Run σ α)
  | 0, x => [.stop x]
  | n + 1, x => continued x (runsWithin results n) (results x) ++ [.stop x]

variable {x : Input σ} {more : Input σ → List (Run σ α)} {rs : List (α × Input σ)} {run : Run σ α}

theorem mem_continued_iff : run ∈ continued x more rs ↔
    ∃ i v mid later, rs[i]? = some (v, mid) ∧ run = later.cons i v ∧
      (mid == x ∧ later = .stop mid ∨ ¬ mid == x ∧ later ∈ more mid) := by
  unfold continued
  rw [List.mem_flatten]
  constructor
  · rintro ⟨_, among, inside⟩
    obtain ⟨i, bound, rfl⟩ := List.mem_mapIdx.mp among
    have chosen := List.getElem?_eq_getElem bound
    split at inside
    case isTrue stays =>
      rw [List.mem_singleton] at inside
      exact ⟨i, _, _, _, chosen, inside, .inl ⟨stays, rfl⟩⟩
    case isFalse moves =>
      obtain ⟨later, member, rfl⟩ := List.mem_map.mp inside
      exact ⟨i, _, _, later, chosen, rfl, .inr ⟨moves, member⟩⟩
  · rintro ⟨i, v, mid, later, chosen, rfl, goes_on⟩
    obtain ⟨bound, found⟩ := List.getElem?_eq_some_iff.mp chosen
    refine ⟨_, List.mem_mapIdx.mpr ⟨i, bound, rfl⟩, ?_⟩
    rw [found]
    rcases goes_on with ⟨stays, rfl⟩ | ⟨moves, member⟩
    · simp [stays]
    · simp only [if_neg moves]
      exact List.mem_map_of_mem member

/-- What is continued is in the order of backtracking when each continuation is: runs with different
first choices come in the order of these choices. -/
theorem pairwise_continued
    (ordered : ∀ y, (more y).Pairwise fun a b => Before a.choices b.choices) :
    (continued x more rs).Pairwise fun a b => Before a.choices b.choices := by
  unfold continued
  rw [List.pairwise_flatten]
  constructor
  · intro runs among
    obtain ⟨i, bound, rfl⟩ := List.mem_mapIdx.mp among
    split
    · exact List.pairwise_singleton _ _
    · rw [List.pairwise_map]
      exact (ordered _).imp fun before => before.cons i
  · rw [List.pairwise_iff_getElem]
    intro i j _ _ earlier a inside b inside'
    have first : ∀ (k : Nat) (r : α × Input σ) (c : Run σ α),
        (c ∈ if r.2 == x then [(Run.stop r.2).cons k r.1] else (more r.2).map (Run.cons k r.1)) →
          ∃ us, c.choices = k :: us := by
      intro k r c member
      split at member
      · rw [List.mem_singleton.mp member]
        exact ⟨_, rfl⟩
      · obtain ⟨later, -, rfl⟩ := List.mem_map.mp member
        exact ⟨_, rfl⟩
    rw [List.getElem_mapIdx] at inside inside'
    obtain ⟨us, heads⟩ := first i _ a inside
    obtain ⟨vs, heads'⟩ := first j _ b inside'
    rw [heads, heads']
    exact .of_lt earlier us vs

theorem map_continued {β : Type} (x : Input σ) (more : Input σ → List (Run σ α))
    (rs : List (α × Input σ)) (f : Run σ α → β) (g : α → Run σ α → β)
    (step : ∀ i v later, f (Run.cons i v later) = g v later) :
    (continued x more rs).map f = rs.flatMap fun r =>
      if r.2 == x then [g r.1 (.stop r.2)] else (more r.2).map (g r.1) := by
  have each : ∀ (i : Nat) (r : α × Input σ),
      (if r.2 == x then [(Run.stop r.2).cons i r.1] else (more r.2).map (Run.cons i r.1)).map f =
        if r.2 == x then [g r.1 (.stop r.2)] else (more r.2).map (g r.1) := by
    intro i r
    split
    · simp [step]
    · simp [step, Function.comp_def]
  unfold continued
  rw [List.map_flatten, List.flatMap_def]
  congr 1
  apply List.ext_getElem?
  intro i
  simp only [List.getElem?_map, List.getElem?_mapIdx, Option.map_map, Function.comp_def, each]

variable {results : Input σ → List (α × Input σ)} {n : Nat}

/-- Where steps that consume nothing are seen, all runs up to a length are listed, and no others. -/
theorem mem_runsWithin_iff (leaves : ∀ y, ∀ r ∈ results y, r.2.symbols <:+ y.symbols)
    (sees : SeesStays results x) :
    run ∈ runsWithin results n x ↔ IsRun results x run ∧ run.choices.length ≤ n := by
  induction n generalizing x run with
  | zero =>
    rw [runsWithin, List.mem_singleton]
    constructor
    · rintro rfl
      exact ⟨.stop x, Nat.le_refl 0⟩
    · rintro ⟨isRun, short⟩
      exact isRun.eq_stop (List.length_eq_zero_iff.mp (Nat.le_zero.mp short))
  | succ n ih =>
    rw [runsWithin, List.mem_append, List.mem_singleton, mem_continued_iff]
    constructor
    · rintro (⟨i, v, mid, later, chosen, rfl, goes_on⟩ | rfl)
      · rcases goes_on with ⟨stays, rfl⟩ | ⟨differs, member⟩
        · exact ⟨.step chosen (absurd rfl) (.stop mid), by simp [Run.cons, Run.stop]⟩
        · have moves := sees.moves (List.mem_of_getElem? chosen) differs
          obtain ⟨isRun, short⟩ := (ih (sees.behind chosen moves)).mp member
          exact ⟨.step chosen (fun _ => moves) isRun, Nat.succ_le_succ short⟩
      · exact ⟨.stop x, Nat.zero_le _⟩
    · rintro ⟨isRun, short⟩
      cases isRun with
      | stop => exact .inr rfl
      | @step _ mid i v later chosen moves isRun =>
        have among := List.mem_of_getElem? chosen
        refine .inl ⟨i, v, mid, later, chosen, rfl, ?_⟩
        by_cases stays : mid == x
        · have ended : later.choices = [] := by
            by_contra longer
            exact moves longer (Input.eq_of_suffix_of_beq (leaves x _ among) stays)
          exact .inl ⟨stays, isRun.eq_stop ended⟩
        · exact .inr ⟨stays, (ih (sees.behind chosen (sees.moves among stays))).mpr
            ⟨isRun, Nat.le_of_succ_le_succ short⟩⟩

theorem pairwise_runsWithin (results : Input σ → List (α × Input σ)) (n : Nat) (x : Input σ) :
    (runsWithin results n x).Pairwise fun a b => Before a.choices b.choices := by
  induction n generalizing x with
  | zero => exact List.pairwise_singleton _ _
  | succ n ih =>
    rw [runsWithin, List.pairwise_append]
    refine ⟨pairwise_continued ih, List.pairwise_singleton _ _, ?_⟩
    intro a inside b last
    obtain ⟨i, v, mid, later, -, rfl, -⟩ := mem_continued_iff.mp inside
    rw [List.mem_singleton.mp last]
    exact .cons_nil i _

/-- With at most one result everywhere the runs become shorter by one step each. -/
theorem lengths_runsWithin (single : ∀ y, (results y).length ≤ 1) (n : Nat) (x : Input σ) :
    (runsWithin results n x).map (fun run => run.values.length) =
      (List.range (runsWithin results n x).length).reverse := by
  induction n generalizing x with
  | zero => rfl
  | succ n ih =>
    have extended := map_continued x (runsWithin results n) (results x)
      (fun run => run.values.length) (fun _ later => later.values.length + 1) fun _ _ _ => rfl
    rw [runsWithin, List.map_append, List.length_append,
      ← List.length_map fun run : Run σ α => run.values.length, extended]
    match shape : results x with
    | [] => rfl
    | [(v, mid)] =>
      rw [List.flatMap_singleton]
      split
      case isTrue => rfl
      case isFalse =>
        have later := congrArg (List.map (· + 1)) (ih mid)
        rw [List.map_map] at later
        simp only [Function.comp_def] at later
        rw [later]
        simp [List.range_succ_eq_map, Run.stop]
    | _ :: _ :: _ =>
      have few := single x
      rw [shape] at few
      simp at few

end

/-! ## What a repetition gives -/

section

variable {p : Parser σ α} {x : Input σ} {results : Input σ → List (α × Input σ)}

theorem SuffixSafe.of_settles {rs : List (α × Input σ)} (safe : p.SuffixSafe)
    (settles : p.Settles x rs) : ∀ r ∈ rs, r.2.symbols <:+ x.symbols := by
  obtain ⟨budget, known⟩ := settles.exists
  exact safe.all known

/-- What a step of a run leaves is shorter, unless the step has consumed nothing. -/
theorem SuffixSafe.shorter (safe : p.SuffixSafe) (finite : ∀ y, p.Settles y (results y))
    {r : α × Input σ} (member : r ∈ results x) (moves : r.2 ≠ x) : r.2.size < x.size :=
  (Input.ProperSuffix.of_ne (safe.of_settles (finite x) r member) moves).shorter

/-- A run has at most one step more than the input has symbols, namely a last one that consumes
nothing. -/
theorem IsRun.length_le (safe : p.SuffixSafe) (finite : ∀ y, p.Settles y (results y))
    {run : Run σ α} (isRun : IsRun results x run) : run.choices.length ≤ x.size + 1 := by
  induction isRun with
  | stop => exact Nat.zero_le _
  | @step x mid i v later chosen moves isRun ih =>
    rw [Run.cons, List.length_cons]
    cases shape : later.choices with
    | nil => simp
    | cons j js =>
      have shorter := safe.shorter finite (List.mem_of_getElem? chosen) (moves (by simp [shape]))
      rw [shape] at ih
      dsimp only at shorter
      omega

variable [BEq σ]

/-- With one step more than the input has symbols no run is left out. -/
theorem mem_runs_iff (safe : p.SuffixSafe) (finite : ∀ y, p.Settles y (results y))
    (sees : SeesStays results x) {run : Run σ α} :
    run ∈ runsWithin results (x.size + 1) x ↔ IsRun results x run := by
  rw [mem_runsWithin_iff (fun y => safe.of_settles (finite y)) sees]
  exact ⟨fun ⟨isRun, _⟩ => isRun, fun isRun => ⟨isRun, isRun.length_le safe finite⟩⟩

theorem settlesMany_runsWithin (safe : p.SuffixSafe) (finite : ∀ y, p.Settles y (results y))
    (sees : SeesStays results x) {n : Nat} (enough : x.size < n) :
    p.SettlesMany x ((runsWithin results n x).map Run.outcome) := by
  induction n generalizing x with
  | zero => omega
  | succ n ih =>
    have runs := (finite x).many_of_shorter
      (fun r => (runsWithin results n r.2).map Run.outcome) fun r member differs => by
        have moves := sees.moves member differs
        have shorter := safe.shorter finite member moves
        obtain ⟨i, chosen⟩ := List.getElem?_of_mem member
        exact ⟨shorter, ih (sees.behind chosen moves) (by omega)⟩
    have steps := map_continued x (runsWithin results n) (results x)
      Run.outcome (fun v later => (v :: later.values, later.rest)) fun _ _ _ => rfl
    rw [runsWithin, List.map_append, steps]
    simpa only [List.map_map, Function.comp_def, Run.outcome, Run.stop, List.map_cons,
      List.map_nil] using runs

theorem SuffixSafe.seesStays (safe : p.SuffixSafe) (finite : ∀ y, p.Settles y (results y))
    (self : (x == x) = true) : SeesStays results x :=
  .of_self (fun y => safe.of_settles (finite y)) self

/-- The runs have no known end when those behind one of the results have none. -/
theorem runsFrom_succ_unfinished {budget steps : Nat} {r : α × Input σ}
    (member : r ∈ (p.run budget x).items) (goes_on : ¬ r.2 == x)
    (unfinished : (p.runsFrom budget steps r.2).finished = false) :
    (p.runsFrom budget (steps + 1) x).finished = false := by
  rw [runsFrom_succ, Results.finished_flatMap, Bool.and_eq_false_iff, List.all_eq_false]
  refine .inr ⟨r, member, ?_⟩
  dsimp only
  rw [if_neg goes_on, Results.finished_map, Results.finished_append, unfinished]
  simp

/-- A step that consumes nothing without being seen to is taken again and again. The set of runs is cut
somewhere then, however large the budget is. -/
theorem IsRun.unfinished (safe : p.SuffixSafe) (finite : ∀ y, p.Settles y (results y))
    {run : Run σ α} (isRun : IsRun results x run) {v : α}
    (stays : (v, run.rest) ∈ results run.rest) (differs : ¬ run.rest == run.rest) :
    ∀ᶠ budget in Filter.atTop, ∀ steps, (p.runsFrom budget steps x).finished = false := by
  induction isRun with
  | stop x =>
    filter_upwards [finite x] with budget all steps
    obtain ⟨-, items⟩ := Results.toList?_eq_some_iff.mp all
    induction steps with
    | zero => rfl
    | succ steps ih => exact runsFrom_succ_unfinished (items ▸ stays) differs ih
  | @step x mid i w run chosen moves later ih =>
    have among := List.mem_of_getElem? chosen
    by_cases same : mid = x
    case pos => exact same ▸ ih stays differs
    case neg =>
      have suffix := safe.of_settles (finite x) _ among
      have other : ¬ mid == x := mt (Input.eq_of_suffix_of_beq suffix) same
      filter_upwards [finite x, ih stays differs] with budget all unfinished steps
      obtain ⟨-, items⟩ := Results.toList?_eq_some_iff.mp all
      cases steps with
      | zero => rfl
      | succ steps => exact runsFrom_succ_unfinished (items ▸ among) other (unfinished steps)

theorem seesStays_of_settles (safe : p.SuffixSafe) (finite : ∀ y, p.Settles y (results y))
    {runs : List (List α × Input σ)} (settles : p.many.Settles x runs) : SeesStays results x := by
  intro run isRun v stays
  by_contra differs
  obtain ⟨budget, all, unfinished⟩ :=
    (settles.and (isRun.unfinished safe finite stays differs)).exists
  obtain ⟨finished, -⟩ := Results.toList?_eq_some_iff.mp all
  rw [run_many, Results.finished_append, unfinished budget] at finished
  cases finished

/-- Repeating a parser gives every run exactly once, provided that wherever a run gets a result that
consumes nothing is seen to do so; and otherwise a repetition has no end. A run comes behind all its
extensions and otherwise in the order of the first choice that differs. The last one is the run without
steps, which a repetition of one or more occurrences does not have. If there is never more than one
result, the runs become shorter by one step each, down to no steps. -/
theorem many_enumerates_runs (safe : p.SuffixSafe) (finite : ∀ y, p.Settles y (results y))
    (x : Input σ) :
    ((∃ rs, p.many.Settles x rs) ↔ SeesStays results x) ∧
    (SeesStays results x → ∃ runs longer : List (Run σ α), runs = longer ++ [.stop x] ∧
      (∀ run, run ∈ runs ↔ IsRun results x run) ∧
      runs.Pairwise (fun a b => Before a.choices b.choices) ∧ (runs.map Run.choices).Nodup ∧
      p.many.Settles x (runs.map Run.outcome) ∧ p.many1.Settles x (longer.map Run.outcome) ∧
      ((∀ y, (results y).length ≤ 1) →
        runs.map (fun run => run.values.length) = (List.range runs.length).reverse)) := by
  constructor
  · constructor
    · exact fun ⟨_, settles⟩ => seesStays_of_settles safe finite settles
    · exact fun sees =>
        ⟨_, (settlesMany_runsWithin safe finite sees (Nat.lt_succ_self x.size)).settles⟩
  intro sees
  have settles := settlesMany_runsWithin safe finite sees (Nat.lt_succ_self x.size)
  have ordered := pairwise_runsWithin results (x.size + 1) x
  have members : ∀ run, run ∈ runsWithin results (x.size + 1) x ↔ IsRun results x run :=
    fun run => mem_runs_iff safe finite sees
  refine ⟨_, _, rfl, members, ordered, ?once, settles.settles, ?nonempty, ?single⟩
  case once => exact List.pairwise_map.mpr (ordered.imp Before.ne)
  case nonempty =>
    apply SettlesMany.many1
    simpa [runsWithin, Run.outcome, Run.stop] using settles
  case single => exact fun single => lengths_runsWithin single (x.size + 1) x

end

/-- What a steady parser gives under some budget it settles on. -/
theorem Steady.settles {p : Parser σ α} {x : Input σ} {rs : List (α × Input σ)} {budget : Nat}
    (steady : p.Steady) (known : p.all budget x = some rs) : p.Settles x rs := by
  filter_upwards [Filter.eventually_ge_atTop budget] with large more
  exact steady.all more known

/-- The letter `a` may be there or be left out. On `a` there are four runs: the letter and behind it
no letter, the letter alone, no letter, and the run without steps. Where the letter must be there,
the runs on `aa` have two steps, one and none. -/
theorem optional_letter_runs :
    (∃ results, ∃ runs : List (Run Char (Option Char)),
      (∀ y, (symbol 'a').optional.Settles y (results y)) ∧
      (∀ run, run ∈ runs ↔ IsRun results (.ofString "a") run) ∧
      runs.Pairwise (fun a b => Before a.choices b.choices) ∧
      runs.map Run.outcome = [([some 'a', none], .ofString ""), ([some 'a'], .ofString ""),
        ([none], .ofString "a"), ([], .ofString "a")]) ∧
    ∃ results, ∃ runs : List (Run Char Char), (∀ y, (symbol 'a').Settles y (results y)) ∧
      (∀ run, run ∈ runs ↔ IsRun results (.ofString "aa") run) ∧
      runs.map (fun run => run.values.length) = [2, 1, 0] := by
  have letter : ∀ y : Input Char, (symbol 'a').Settles y
      ((y.head?.filter fun d => d = 'a').map fun c => (c, y.tail)).toList :=
    fun y => .of_run fun _ => Results.toList?_ofOption _
  have letter_safe := SuffixSafe.symbol 'a'
  have letter_steady := Steady.symbol 'a'
  constructor
  · have finite := fun y => ((letter y).map some).either (Settles.succeed none y)
    have steady := ((letter_steady.map some).either (.succeed none)).many
    have known : (symbol 'a').optional.many.all 3 (.ofString "a") =
        some [([some 'a', none], .ofString ""), ([some 'a'], .ofString ""),
          ([none], .ofString "a"), ([], .ofString "a")] := rfl
    obtain ⟨-, enumerated⟩ := many_enumerates_runs letter_safe.optional finite (.ofString "a")
    obtain ⟨runs, -, -, members, ordered, -, settles, -⟩ := enumerated .of_refl
    exact ⟨_, runs, finite, members, ordered, settles.unique (steady.settles known)⟩
  · have known : (symbol 'a').many.all 3 (.ofString "aa") =
        some [(['a', 'a'], .ofString ""), (['a'], .ofString "a"), ([], .ofString "aa")] := rfl
    obtain ⟨-, enumerated⟩ := many_enumerates_runs letter_safe letter (.ofString "aa")
    obtain ⟨runs, -, -, members, -, -, settles, -, lengths⟩ := enumerated .of_refl
    have outcomes := settles.unique (letter_steady.many.settles known)
    refine ⟨_, runs, letter, members, ?_⟩
    simpa [Function.comp_def, Run.outcome] using congrArg (List.map fun r => r.1.length) outcomes

/-- Where the first result consumes nothing without being seen to, not even a first run is found. -/
theorem runsFrom_eq_cut [BEq σ] {p : Parser σ α} {x : Input σ} {v : α}
    {tail : Unit → Results (α × Input σ)} {budget : Nat} (first : p.run budget x = .item (v, x) tail)
    (differs : ¬ x == x) (steps : Nat) : p.runsFrom budget steps x = .cut := by
  induction steps with
  | zero => rfl
  | succ steps ih =>
    rw [runsFrom_succ, first, Results.flatMap]
    dsimp only
    rw [if_neg differs, ih]
    rfl

/-- A number that is not one differs from itself. What consumes nothing in front of it is repeated
without end: there are runs, the one without steps is among them, but no result is ever held. -/
theorem not_a_number_runs :
    (epsilon : Parser Float Unit).SuffixSafe ∧
    (∀ y, (epsilon : Parser Float Unit).Settles y [((), y)]) ∧
    IsRun (fun y => [((), y)]) .notANumber (.stop .notANumber) ∧
    ∀ budget, (epsilon : Parser Float Unit).many.run budget .notANumber = .cut ∧
      (epsilon : Parser Float Unit).many1.run budget .notANumber = .cut := by
  refine ⟨.epsilon, .succeed (), .stop _, fun budget => ?_⟩
  rw [run_many, run_many1, runsFrom_eq_cut rfl Input.notANumber_differs]
  exact ⟨rfl, rfl⟩

end Parser

end AllParses
