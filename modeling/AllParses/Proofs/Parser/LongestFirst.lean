import AllParses.Proofs.Parser.FirstRun

/-!
# Longer runs before shorter ones

The runs of a repetition come in the order of backtracking, and the loop follows first results. In
both the order of what is repeated decides. A run that is tried late may well get further than all
before it, so longer runs come first under a condition only:

* `longestFirst_iff`: wherever a run can get, what begins with a later result must not get beyond
  what an earlier result leaves by itself (`Unsurpassed`);
* `FollowsFirst.longest_iff`: for the loop to find a longest run it is enough, and necessary, that on
  its way a run that begins with the first result gets as far as any other (`FirstSuffices`).

Both are inductions on a run. Two runs have a common way up to the place where they part, and the
condition is about this place.
-/
namespace AllParses

namespace Parser

variable {σ α : Type}

/-- No result leaves less of the input than one that comes before it. -/
def LongestFirst (rs : List (α × Input σ)) : Prop :=
  rs.Pairwise fun r s => r.2.size ≤ s.2.size

/-- No result leaves less of the input than the first one. -/
def FirstIsLongest (rs : List (α × Input σ)) : Prop :=
  ∀ first ∈ rs.head?, ∀ r ∈ rs, first.2.size ≤ r.2.size

theorem firstIsLongest_cons {first : α × Input σ} {others : List (α × Input σ)} :
    FirstIsLongest (first :: others) ↔ ∀ r ∈ first :: others, first.2.size ≤ r.2.size := by
  simp [FirstIsLongest]

theorem LongestFirst.firstIsLongest {rs : List (α × Input σ)} (ordered : LongestFirst rs) :
    FirstIsLongest rs := by
  cases rs with
  | nil => simp [FirstIsLongest]
  | cons first others =>
    rw [firstIsLongest_cons, List.forall_mem_cons]
    exact ⟨Nat.le_refl _, (List.pairwise_cons.mp ordered).1⟩

instance (rs : List (α × Input σ)) : Decidable (LongestFirst rs) :=
  inferInstanceAs (Decidable (rs.Pairwise fun r s => r.2.size ≤ s.2.size))

/-- No run from `x` that begins with a later result leaves less than an earlier result does. -/
def Unsurpassed (results : Input σ → List (α × Input σ)) (x : Input σ) : Prop :=
  ∀ (j : Nat) (run : Run σ α), IsRun results x run → run.choices.head? = some j →
    ∀ r ∈ (results x).take j, r.2.size ≤ run.rest.size

/-- For every run from `x` there is one that leaves no more and takes the first result, or none, to
begin with. -/
def FirstSuffices (results : Input σ → List (α × Input σ)) (x : Input σ) : Prop :=
  ∀ run : Run σ α, IsRun results x run →
    ∃ best, IsRun results x best ∧ (∀ i ∈ best.choices.head?, i = 0) ∧
      best.rest.size ≤ run.rest.size

/-- The run that takes first results until there is none or nothing is consumed. -/
inductive FollowsFirst (results : Input σ → List (α × Input σ)) : Input σ → Run σ α → Prop where
  | refused {x : Input σ} (none : results x = []) : FollowsFirst results x (.stop x)
  | stays {x : Input σ} {v : α} {others : List (α × Input σ)} (first : results x = (v, x) :: others) :
    FollowsFirst results x ((Run.stop x).cons 0 v)
  | step {x mid : Input σ} {v : α} {others : List (α × Input σ)} {run : Run σ α}
    (first : results x = (v, mid) :: others) (moves : mid ≠ x)
    (later : FollowsFirst results mid run) : FollowsFirst results x (run.cons 0 v)

/-! ## The order of backtracking -/

namespace Before

variable {i j : Nat} {u v : List Nat}

theorem not_nil_left (v : List Nat) : ¬ Before [] v := by
  rintro (⟨more, longer, same⟩ | earlier)
  · exact longer (List.append_eq_nil_iff.mp same.symm).2
  · cases earlier

theorem cons_cons_iff : Before (i :: u) (j :: v) ↔ i < j ∨ i = j ∧ Before u v := by
  constructor
  · rintro (⟨more, longer, same⟩ | earlier)
    · obtain ⟨rfl, rfl⟩ := List.cons.inj same
      exact .inr ⟨rfl, .inl ⟨more, longer, rfl⟩⟩
    · cases earlier with
      | head earlier => exact .inl earlier
      | tail _ rest => exact .inr ⟨rfl, .inr rest⟩
  · rintro (earlier | ⟨rfl, before⟩)
    · exact .of_lt earlier u v
    · exact .cons i before

theorem append_left (front : List Nat) (before : Before u v) : Before (front ++ u) (front ++ v) := by
  induction front with
  | nil => exact before
  | cons i front ih => exact .cons i ih

theorem asymm (before : Before u v) : ¬ Before v u := by
  induction u generalizing v with
  | nil => exact absurd before (not_nil_left v)
  | cons i u ih =>
    cases v with
    | nil => exact not_nil_left _
    | cons j v =>
      rw [cons_cons_iff] at before ⊢
      rintro (later | ⟨rfl, after⟩)
      · rcases before with earlier | ⟨rfl, -⟩ <;> omega
      · rcases before with earlier | ⟨-, before⟩
        · exact Nat.lt_irrefl _ earlier
        · exact ih before after

end Before

/-- In a list in the order of backtracking whatever is before something else stands before it. -/
theorem pairwise_iff_of_before {runs : List (Run σ α)} {R : Run σ α → Run σ α → Prop}
    (ordered : runs.Pairwise fun a b => Before a.choices b.choices) :
    runs.Pairwise R ↔ ∀ a ∈ runs, ∀ b ∈ runs, Before a.choices b.choices → R a b := by
  constructor
  · intro related a among b among' before
    obtain ⟨i, inside, rfl⟩ := List.mem_iff_getElem.mp among
    obtain ⟨j, inside', rfl⟩ := List.mem_iff_getElem.mp among'
    rcases Nat.lt_trichotomy i j with earlier | rfl | later
    · exact List.pairwise_iff_getElem.mp related i j inside inside' earlier
    · exact absurd rfl before.ne
    · exact absurd before (List.pairwise_iff_getElem.mp ordered j i inside' inside later).asymm
  · intro all
    exact ordered.imp_of_mem fun among among' before => all _ among _ among' before

/-! ## Runs that part -/

section

variable {p : Parser σ α} {x : Input σ} {results : Input σ → List (α × Input σ)}
  {run : Run σ α}

/-- Behind a step that consumes nothing there is no other. -/
theorem IsRun.eq_stop_of_stays {mid : Input σ} (tail : IsRun results mid run)
    (moves : run.choices ≠ [] → mid ≠ x) (stays : mid = x) : run = .stop mid := by
  apply tail.eq_stop
  by_contra more
  exact moves more stays

/-- Behind a run others may begin. A last step that consumes nothing is left out then. -/
theorem IsRun.exists_front (isRun : IsRun results x run) :
    ∃ front : List Nat, ∀ later, IsRun results run.rest later →
      ∃ whole, IsRun results x whole ∧ whole.choices = front ++ later.choices ∧
        whole.rest = later.rest := by
  induction isRun with
  | stop x => exact ⟨[], fun later isRun => ⟨later, isRun, rfl, rfl⟩⟩
  | @step x mid i v run chosen moves tail ih =>
    by_cases stays : mid = x
    case pos =>
      rw [tail.eq_stop_of_stays moves stays, stays]
      exact ⟨[], fun later isRun => ⟨later, isRun, rfl, rfl⟩⟩
    case neg =>
      obtain ⟨front, joins⟩ := ih
      refine ⟨i :: front, fun later isRun => ?_⟩
      obtain ⟨whole, isRun', choices, rest⟩ := joins later isRun
      exact ⟨whole.cons i v, .step chosen (fun _ => stays) isRun',
        congrArg (i :: ·) choices, rest⟩

variable (safe : p.SuffixSafe) (finite : ∀ y, p.Settles y (results y))

include safe finite

theorem IsRun.size_le (isRun : IsRun results x run) : run.rest.size ≤ x.size := by
  induction isRun with
  | stop => exact Nat.le_refl _
  | step chosen moves later ih =>
    have step := safe.of_settles (finite _) _ (List.mem_of_getElem? chosen)
    exact ih.trans (Input.size_le_of_suffix step)

/-- Of two runs the one that comes first leaves no more, provided that this is so where they part. -/
theorem size_le_of_unsurpassed {a b : Run σ α} (first : IsRun results x a)
    (second : IsRun results x b) (before : Before a.choices b.choices)
    (unsurpassed : ∀ run, IsRun results x run → Unsurpassed results run.rest) :
    a.rest.size ≤ b.rest.size := by
  induction first generalizing b with
  | stop => exact absurd before (Before.not_nil_left _)
  | @step x mid i v a chosen moves tail ih =>
    have whole : IsRun results x (a.cons i v) := .step chosen moves tail
    cases second with
    | stop => exact whole.size_le safe finite
    | @step _ mid' j w b chosen' moves' tail' =>
      rcases Before.cons_cons_iff.mp before with earlier | ⟨rfl, tails⟩
      · have among : (v, mid) ∈ (results x).take j :=
          List.mem_of_getElem? (by rw [List.getElem?_take_of_lt earlier, chosen])
        have bound := unsurpassed (.stop x) (.stop x) j (b.cons j w)
          (.step chosen' moves' tail') rfl (v, mid) among
        exact (tail.size_le safe finite).trans bound
      · obtain ⟨rfl, rfl⟩ := Prod.mk.inj (Option.some.inj (chosen.symm.trans chosen'))
        have longer : a.choices ≠ [] := by
          intro ended
          rw [ended] at tails
          exact Before.not_nil_left _ tails
        have bound := ih tail' tails fun run isRun =>
          unsurpassed (run.cons i v) (.step chosen (fun _ => moves longer) isRun)
        exact bound

/-- The runs come in the order of what they leave exactly if nowhere on the way a later result gets
beyond an earlier one. -/
theorem forall_before_iff :
    (∀ a, IsRun results x a → ∀ b, IsRun results x b → Before a.choices b.choices →
      a.rest.size ≤ b.rest.size) ↔
      ∀ run, IsRun results x run → Unsurpassed results run.rest := by
  constructor
  · intro ordered run isRun j later goes_on begins r among
    obtain ⟨front, joins⟩ := isRun.exists_front
    obtain ⟨i, inside, chosen⟩ := List.mem_iff_getElem.mp among
    have earlier : i < j := (List.length_take ▸ inside).trans_le (Nat.min_le_left _ _)
    have found : (results run.rest)[i]? = some r := by
      rw [← List.getElem?_take_of_lt earlier, List.getElem?_eq_getElem inside, chosen]
    obtain ⟨a, first, choices, rest⟩ :=
      joins ((Run.stop r.2).cons i r.1) (.step found (absurd rfl) (.stop r.2))
    obtain ⟨b, second, choices', rest'⟩ := joins later goes_on
    obtain ⟨js, begins⟩ := List.head?_eq_some_iff.mp begins
    have before : Before a.choices b.choices := by
      rw [choices, choices', begins]
      exact (Before.of_lt earlier [] js).append_left front
    have bound := ordered a first b second before
    rwa [rest, rest'] at bound
  · intro unsurpassed a first b second before
    exact size_le_of_unsurpassed safe finite first second before unsurpassed

end

/-! ## Following the first results -/

namespace FollowsFirst

variable {p : Parser σ α} {x : Input σ} {results : Input σ → List (α × Input σ)}
  {run first : Run σ α}

theorem isRun (follows : FollowsFirst results x first) : IsRun results x first := by
  induction follows with
  | refused => exact .stop _
  | stays known => exact .step (by rw [known]; rfl) (absurd rfl) (.stop _)
  | step known moves later ih => exact .step (by rw [known]; rfl) (fun _ => moves) ih

theorem head (follows : FollowsFirst results x first) : ∀ i ∈ first.choices.head?, i = 0 := by
  cases follows <;> simp [Run.cons, Run.stop]

/-- Behind first results the same run goes on. -/
theorem exists_behind (follows : FollowsFirst results x first) (isRun : IsRun results x run)
    (firsts : ∀ i ∈ run.choices, i = 0) :
    ∃ later, FollowsFirst results run.rest later ∧ later.rest = first.rest := by
  induction isRun generalizing first with
  | stop => exact ⟨first, follows, rfl⟩
  | @step x mid i v run chosen moves tail ih =>
    obtain rfl : i = 0 := firsts i List.mem_cons_self
    cases follows with
    | refused none => simp [none] at chosen
    | stays known =>
      obtain ⟨rfl, rfl⟩ : _ = v ∧ x = mid := by simpa [known] using chosen
      rw [tail.eq_stop_of_stays moves rfl]
      exact ⟨_, .stays known, rfl⟩
    | step known moves later =>
      obtain ⟨rfl, rfl⟩ : _ = v ∧ _ = mid := by simpa [known] using chosen
      have behind := ih later fun i member => firsts i (List.mem_cons_of_mem 0 member)
      exact behind

variable (safe : p.SuffixSafe) (finite : ∀ y, p.Settles y (results y))

include safe finite

theorem size_le (follows : FollowsFirst results x first)
    (suffices_first : ∀ run, IsRun results x run → (∀ i ∈ run.choices, i = 0) →
      FirstSuffices results run.rest)
    (isRun : IsRun results x run) : first.rest.size ≤ run.rest.size := by
  induction follows generalizing run with
  | refused none =>
    cases isRun with
    | stop => exact Nat.le_refl _
    | step chosen => simp [none] at chosen
  | @stays x v others known =>
    have here : FirstSuffices results x := suffices_first (.stop x) (.stop x) (by simp [Run.stop])
    obtain ⟨best, isRun', begins, bound⟩ := here run isRun
    refine Nat.le_trans ?_ bound
    cases isRun' with
    | stop => exact Nat.le_refl _
    | @step _ mid i w best chosen moves tail =>
      obtain rfl : i = 0 := begins i rfl
      obtain ⟨rfl, rfl⟩ : v = w ∧ x = mid := by simpa [known] using chosen
      rw [tail.eq_stop_of_stays moves rfl]
  | @step x mid v others first known moves later ih =>
    have here : FirstSuffices results x := suffices_first (.stop x) (.stop x) (by simp [Run.stop])
    obtain ⟨best, isRun', begins, bound⟩ := here run isRun
    refine Nat.le_trans ?_ bound
    have step : IsRun results x (first.cons 0 v) := (FollowsFirst.step known moves later).isRun
    cases isRun' with
    | stop => exact step.size_le safe finite
    | @step _ mid' i w best chosen _ tail =>
      obtain rfl : i = 0 := begins i rfl
      obtain ⟨rfl, rfl⟩ : v = w ∧ mid = mid' := by simpa [known] using chosen
      have behind := ih (fun run isRun firsts => ?_) tail
      · exact behind
      · refine suffices_first (run.cons 0 v) (.step chosen (fun _ => moves) isRun) fun i member => ?_
        rcases List.mem_cons.mp member with rfl | later
        · rfl
        · exact firsts i later

/-- Following first results leads to a longest run exactly if on this way the first result always
suffices to get as far as any run does. -/
theorem longest_iff (follows : FollowsFirst results x first) :
    (∀ run, IsRun results x run → first.rest.size ≤ run.rest.size) ↔
      ∀ run, IsRun results x run → (∀ i ∈ run.choices, i = 0) →
        FirstSuffices results run.rest := by
  constructor
  · intro longest run isRun firsts other goes_on
    obtain ⟨front, joins⟩ := isRun.exists_front
    obtain ⟨whole, isRun', -, rest⟩ := joins other goes_on
    obtain ⟨later, follows', rest'⟩ := follows.exists_behind isRun firsts
    refine ⟨later, follows'.isRun, follows'.head, ?_⟩
    rw [rest', ← rest]
    exact longest whole isRun'
  · intro suffices_first run isRun
    exact follows.size_le safe finite suffices_first isRun

end FollowsFirst

/-! ## What is listed and what the loop finds -/

section

variable [DecidableEq σ] {p : Parser σ α} {x : Input σ} {results : Input σ → List (α × Input σ)}

/-- The first of all runs follows first results. -/
theorem exists_followsFirst (safe : p.SuffixSafe) (finite : ∀ y, p.Settles y (results y)) {n : Nat}
    (enough : x.size < n) :
    ∃ first others, runsWithin results n x = first :: others ∧ FollowsFirst results x first := by
  induction n generalizing x with
  | zero => omega
  | succ n ih =>
    rw [runsWithin]
    cases known : results x with
    | nil => exact ⟨_, _, rfl, .refused known⟩
    | cons r others =>
      obtain ⟨v, mid⟩ := r
      rw [continued, List.mapIdx_cons, List.flatten_cons]
      by_cases stays : mid = x
      case pos =>
        subst stays
        rw [if_pos BEq.rfl]
        exact ⟨_, _, rfl, .stays known⟩
      case neg =>
        have shorter := safe.shorter finite (x := x) (r := (v, mid)) (by simp [known]) stays
        obtain ⟨first, later, shape, follows⟩ := ih (x := mid) (by dsimp only at shorter; omega)
        rw [if_neg (by simpa using stays), shape]
        exact ⟨_, _, rfl, .step known stays follows⟩

/-- A repetition of one or more occurrences lacks the empty run only, which leaves the most and comes
last. -/
theorem longest_many1_iff (safe : p.SuffixSafe) {longer : List (List α × Input σ)}
    (settles : p.many1.Settles x longer) :
    (LongestFirst longer ↔ LongestFirst (longer ++ [([], x)])) ∧
      (FirstIsLongest longer ↔ FirstIsLongest (longer ++ [([], x)])) := by
  have bound : ∀ r ∈ longer, r.2.size ≤ x.size := fun r member =>
    Input.size_le_of_suffix (safe.many1.of_settles settles r member)
  constructor
  · rw [LongestFirst, LongestFirst, List.pairwise_append]
    simpa using fun _ vs rest => bound (vs, rest)
  · cases longer with
    | nil => simp [FirstIsLongest]
    | cons first others =>
      have least := bound first List.mem_cons_self
      rw [List.cons_append, firstIsLongest_cons, firstIsLongest_cons, ← List.cons_append,
        List.forall_mem_append, List.forall_mem_singleton, and_iff_left least]

variable (safe : p.SuffixSafe) (finite : ∀ y, p.Settles y (results y))

include safe finite

theorem longestFirst_iff : LongestFirst ((runsWithin results (x.size + 1) x).map Run.outcome) ↔
    ∀ run, IsRun results x run → Unsurpassed results run.rest := by
  rw [LongestFirst, List.pairwise_map,
    pairwise_iff_of_before (pairwise_runsWithin results (x.size + 1) x),
    ← forall_before_iff safe finite]
  simp only [mem_runs_iff safe finite .of_refl]
  rfl

theorem firstIsLongest_iff :
    FirstIsLongest ((runsWithin results (x.size + 1) x).map Run.outcome) ↔
      ∀ run, IsRun results x run → (∀ i ∈ run.choices, i = 0) → FirstSuffices results run.rest := by
  obtain ⟨first, others, shape, follows⟩ :=
    exists_followsFirst safe finite (Nat.lt_succ_self x.size)
  have members : ∀ run, run ∈ runsWithin results (x.size + 1) x ↔ IsRun results x run :=
    fun _ => mem_runs_iff safe finite .of_refl
  rw [← follows.longest_iff safe finite]
  rw [shape] at members ⊢
  rw [List.map_cons, firstIsLongest_cons, ← List.map_cons, List.forall_mem_map]
  simp only [members]
  rfl

end

section

variable {results : Input σ → List (α × Input σ)} {x : Input σ}

theorem unsurpassed_of_single (single : (results x).length ≤ 1) : Unsurpassed results x := by
  intro j run isRun begins r among
  cases isRun with
  | stop => simp [Run.stop] at begins
  | @step _ mid i v run chosen moves later =>
    obtain rfl : i = j := Option.some.inj begins
    obtain ⟨inside, -⟩ := List.getElem?_eq_some_iff.mp chosen
    obtain rfl : i = 0 := by omega
    simp at among

/-- Where all results leave the same, the first one will do. -/
theorem firstSuffices_of_same (same : ∀ r ∈ results x, ∀ s ∈ results x, r.2 = s.2) :
    FirstSuffices results x := by
  intro run isRun
  cases isRun with
  | stop => exact ⟨.stop x, .stop x, by simp [Run.stop], Nat.le_refl _⟩
  | @step _ mid i v run chosen moves later =>
    have among := List.mem_of_getElem? chosen
    obtain ⟨first, others, shape⟩ := List.exists_cons_of_ne_nil (List.ne_nil_of_mem among)
    have leaves : first.2 = mid := same first (by simp [shape]) _ among
    have found : (results x)[0]? = some (first.1, mid) := by
      rw [shape, ← leaves]
      rfl
    exact ⟨run.cons 0 first.1, .step found moves later, by simp [Run.cons], Nat.le_refl _⟩

end

theorem Settles.firstOnly {p : Parser σ α} {x : Input σ} {rs : List (α × Input σ)}
    (settles : p.Settles x rs) : p.firstOnly.Settles x (rs.take 1) :=
  settles.mono fun _ all => toList?_run_limit 1 all

/-- Whether longer runs come first is decided by the order of what is repeated. A repetition gives
them first exactly if, wherever a run gets, no later result leads beyond what an earlier one leaves.
The loop that follows first results finds a longest run exactly if everywhere on its way a run that
begins with the first result gets as far as any other. With at most one result everywhere longer runs
do come first, and where all results leave the same the loop does find a longest run. -/
theorem longer_runs_first_iff [DecidableEq σ] {p : Parser σ α}
    {results : Input σ → List (α × Input σ)} (safe : p.SuffixSafe)
    (finite : ∀ y, p.Settles y (results y)) (x : Input σ) :
    ∃ runs longer, runs = longer ++ [([], x)] ∧
      p.many.Settles x runs ∧ p.many1.Settles x longer ∧
      p.firstRun.Settles x (runs.take 1) ∧ p.firstRun1.Settles x (longer.take 1) ∧
      (LongestFirst longer ↔ LongestFirst runs) ∧ (FirstIsLongest longer ↔ FirstIsLongest runs) ∧
      (LongestFirst runs ↔ ∀ run, IsRun results x run → Unsurpassed results run.rest) ∧
      (FirstIsLongest runs ↔ ∀ run, IsRun results x run → (∀ i ∈ run.choices, i = 0) →
        FirstSuffices results run.rest) ∧
      ((∀ y, (results y).length ≤ 1) → LongestFirst runs ∧ FirstIsLongest runs) ∧
      ((∀ y, ∀ r ∈ results y, ∀ s ∈ results y, r.2 = s.2) → FirstIsLongest runs) := by
  have settles := settlesMany_runsWithin safe finite .of_refl (Nat.lt_succ_self x.size)
  have ordered := longestFirst_iff (x := x) safe finite
  have longest := firstIsLongest_iff (x := x) safe finite
  obtain ⟨longer, shape⟩ : ∃ longer : List (List α × Input σ),
      (runsWithin results (x.size + 1) x).map Run.outcome = longer ++ [([], x)] :=
    ⟨_, by rw [runsWithin, List.map_append]; rfl⟩
  rw [shape] at settles ordered longest
  have many := settles.settles
  have many1 := settles.many1
  obtain ⟨ordered1, longest1⟩ := longest_many1_iff safe many1
  refine ⟨_, longer, rfl, many, many1, ?loop, ?loop1, ordered1, longest1, ordered, longest, ?single,
    ?same⟩
  case loop => exact (Settles.congr_run (firstRun_eq_many p)).mpr many.firstOnly
  case loop1 => exact (Settles.congr_run (firstRun1_eq_many1 p)).mpr many1.firstOnly
  case single =>
    intro single
    have sorted := ordered.mpr fun run _ => unsurpassed_of_single (single run.rest)
    exact ⟨sorted, sorted.firstIsLongest⟩
  case same => exact fun same => longest.mpr fun run _ _ => firstSuffices_of_same (same run.rest)

/-- Either of two words. -/
def oneOf (one other : String) : Parser Char (List Char) :=
  (token one.toList).either (token other.toList)

theorem oneOf_suffixSafe (one other : String) : (oneOf one other).SuffixSafe :=
  (SuffixSafe.token _).either (.token _)

theorem oneOf_finitary (one other : String) : (oneOf one other).Finitary :=
  (Finitary.token _).either (.token _)

theorem oneOf_steady (one other : String) : (oneOf one other).Steady :=
  (Steady.token _).either (.token _)

/-- On `ab` a repetition of `ab` or `a` begins with the longer word, and at no place does a later
result get further than an earlier one. With the words in the other order the second result does. -/
theorem longer_word_first :
    (∃ results, (∀ y, (oneOf "ab" "a").Settles y (results y)) ∧
      (oneOf "ab" "a").many.Settles (.ofString "ab")
        [([['a', 'b']], .ofString ""), ([['a']], .ofString "b"), ([], .ofString "ab")] ∧
      (oneOf "ab" "a").firstRun.Settles (.ofString "ab") [([['a', 'b']], .ofString "")] ∧
      ∀ run, IsRun results (.ofString "ab") run → Unsurpassed results run.rest) ∧
    ∃ results, (∀ y, (oneOf "a" "ab").Settles y (results y)) ∧
      ¬ ∀ run, IsRun results (.ofString "ab") run → Unsurpassed results run.rest := by
  constructor
  · choose results finite using oneOf_finitary "ab" "a"
    obtain ⟨runs, -, -, many, -, loop, -, -, -, ordered, -, -, -⟩ :=
      longer_runs_first_iff (oneOf_suffixSafe "ab" "a") finite (.ofString "ab")
    have known : (oneOf "ab" "a").many.all 3 (.ofString "ab") = some
        [([['a', 'b']], .ofString ""), ([['a']], .ofString "b"), ([], .ofString "ab")] := rfl
    obtain rfl := many.unique ((oneOf_steady _ _).many.settles known)
    exact ⟨results, finite, many, loop, ordered.mp (by decide)⟩
  · choose results finite using oneOf_finitary "a" "ab"
    obtain ⟨runs, -, -, many, -, -, -, -, -, ordered, -, -, -⟩ :=
      longer_runs_first_iff (oneOf_suffixSafe "a" "ab") finite (.ofString "ab")
    have known : (oneOf "a" "ab").many.all 3 (.ofString "ab") = some
        [([['a']], .ofString "b"), ([['a', 'b']], .ofString ""), ([], .ofString "ab")] := rfl
    obtain rfl := many.unique ((oneOf_steady _ _).many.settles known)
    exact ⟨results, finite, ordered.not.mp (by decide)⟩

/-- With the shorter word first the run of the longer one comes second on `ab`, and the loop does not
find it. -/
theorem shorter_word_first :
    (oneOf "a" "ab").SuffixSafe ∧ (oneOf "a" "ab").Finitary ∧
    (oneOf "a" "ab").many.Settles (.ofString "ab")
      [([['a']], .ofString "b"), ([['a', 'b']], .ofString ""), ([], .ofString "ab")] ∧
    (oneOf "a" "ab").many1.Settles (.ofString "ab")
      [([['a']], .ofString "b"), ([['a', 'b']], .ofString "")] ∧
    (oneOf "a" "ab").firstRun.Settles (.ofString "ab") [([['a']], .ofString "b")] ∧
    (oneOf "a" "ab").firstRun1.Settles (.ofString "ab") [([['a']], .ofString "b")] ∧
    (Input.ofString "").size < (Input.ofString "b").size := by
  have known : (oneOf "a" "ab").many1.all 3 (.ofString "ab") = some
      [([['a']], .ofString "b"), ([['a', 'b']], .ofString "")] := rfl
  have many1 := (oneOf_steady _ _).many1.settles known
  have many := many1.either (.succeed [] _)
  exact ⟨oneOf_suffixSafe _ _, oneOf_finitary _ _, many, many1,
    (Settles.congr_run (firstRun_eq_many (oneOf "a" "ab"))).mpr many.firstOnly,
    (Settles.congr_run (firstRun1_eq_many1 (oneOf "a" "ab"))).mpr many1.firstOnly, by decide⟩

end Parser

end AllParses
