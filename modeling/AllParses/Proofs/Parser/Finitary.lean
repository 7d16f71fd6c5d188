import AllParses.Parser.Chain
import AllParses.Proofs.Parser.Runs

/-!
# Repetition comes to an end

A parser is `Finitary` when it settles on a list of results on every input, so that none of its
result sets goes on without end. What is composed of finitary parsers is finitary. For repetitions
the parts must leave suffixes too, and the input must equal itself: then every occurrence but the last
one of a run makes the input shorter. Nothing is asked of a part that may consume nothing, neither where
it does so nor in which of its results.

The loop that follows the first results needs less. `exists_followFirst` looks at the first result
on each input only (`FollowableAt`), so it is also about parsers with endless result sets.
-/
namespace AllParses

namespace Parser

variable {σ α β : Type}

/-- On every input the parser settles on a list of results. -/
def Finitary (p : Parser σ α) : Prop :=
  ∀ x, ∃ rs, p.Settles x rs

namespace Finitary

variable {p p' : Parser σ α} {q : Parser σ β}

protected theorem succeed (v : α) : (succeed v : Parser σ α).Finitary :=
  fun x => ⟨_, .succeed v x⟩

protected theorem epsilon : (epsilon : Parser σ Unit).Finitary :=
  .succeed ()

protected theorem satisfy (c : σ → Bool) : (satisfy c).Finitary :=
  fun _ => ⟨_, .of_run fun _ => Results.toList?_ofOption _⟩

protected theorem symbol [BEq σ] (c : σ) : (symbol c).Finitary :=
  .satisfy _

protected theorem token [BEq σ] (cs : List σ) : (token cs).Finitary := by
  intro x
  refine ⟨if x.symbols.take cs.length == cs then [(cs, x.drop cs.length)] else [], .of_run ?_⟩
  intro budget
  rw [run_token]
  split <;> rfl

protected theorem map (f : α → β) (finite : p.Finitary) : (p.map f).Finitary := by
  intro x
  obtain ⟨rs, settles⟩ := finite x
  exact ⟨_, settles.map f⟩

protected theorem afterLayout [Alphabet σ] (finite : p.Finitary) : p.afterLayout.Finitary :=
  fun x => finite x.skipLayout

protected theorem either (first : p.Finitary) (second : p'.Finitary) : (p.either p').Finitary := by
  intro x
  obtain ⟨rs, settles⟩ := first x
  obtain ⟨ss, settles'⟩ := second x
  exact ⟨_, settles.either settles'⟩

/-- A sequence settles when its second parser does so behind every result of the first one. -/
theorem settles_andThen {x : Input σ} {rs : List (α × Input σ)} (first : p.Settles x rs)
    (second : ∀ r ∈ rs, ∃ ss, q.Settles r.2 ss) : ∃ pairs, (p.andThen q).Settles x pairs := by
  choose! next each using second
  exact ⟨_, first.andThen next each⟩

protected theorem andThen (first : p.Finitary) (second : q.Finitary) : (p.andThen q).Finitary := by
  intro x
  obtain ⟨rs, settles⟩ := first x
  exact settles_andThen settles fun r _ => second r.2

protected theorem thenSkip (first : p.Finitary) (second : q.Finitary) : (p.thenSkip q).Finitary :=
  (first.andThen second).map Prod.fst

protected theorem skipThen (first : p.Finitary) (second : q.Finitary) : (p.skipThen q).Finitary :=
  (first.andThen second).map Prod.snd

theorem settles_orElse {x : Input σ} (first : ∃ rs, p.Settles x rs) (second : ∃ rs, p'.Settles x rs) :
    ∃ rs, (p.orElse p').Settles x rs := by
  obtain ⟨rs, settles⟩ := first
  obtain ⟨ss, settles'⟩ := second
  cases rs with
  | nil => exact ⟨ss, settles.orElse_nil settles'⟩
  | cons r rs => exact ⟨r :: rs, settles.orElse⟩

section Repetition

variable [BEq σ] {x : Input σ}

theorem settles_many (safe : p.SuffixSafe) (finite : p.Finitary) (self : (x == x) = true) :
    ∃ runs, p.many.Settles x runs := by
  choose results settles using finite
  exact ⟨_, (settlesMany_runsWithin safe settles (safe.seesStays settles self)
    (Nat.lt_succ_self x.size)).settles⟩

theorem settles_many1 (safe : p.SuffixSafe) (finite : p.Finitary) (self : (x == x) = true) :
    ∃ runs, p.many1.Settles x runs := by
  choose results settles using finite
  have runs := settlesMany_runsWithin safe settles (safe.seesStays settles self)
    (Nat.lt_succ_self x.size)
  rw [runsWithin, List.map_append] at runs
  exact ⟨_, runs.many1⟩

/-- An occurrence, and then any number of something else: what the occurrence leaves of an input that
equals itself equals itself too. -/
theorem settles_andThen_many (safe : p.SuffixSafe) (more_safe : q.SuffixSafe) (finite : p.Finitary)
    (more : q.Finitary) (self : (x == x) = true) : ∃ pairs, (p.andThen q.many).Settles x pairs := by
  obtain ⟨rs, settles⟩ := finite x
  refine settles_andThen settles fun r member => ?_
  exact settles_many more_safe more
    (Input.beq_self_of_suffix self (safe.of_settles settles r member))

theorem settles_sepBy (safe : p.SuffixSafe) (separator_safe : q.SuffixSafe) (finite : p.Finitary)
    (separator : q.Finitary) (self : (x == x) = true) : ∃ lists, (p.sepBy q).Settles x lists := by
  obtain ⟨scans, settles⟩ := settles_andThen_many safe (separator_safe.skipThen safe) finite
    (separator.skipThen finite) self
  exact settles_orElse ⟨_, settles.map _⟩ ⟨_, .succeed [] x⟩

theorem settles_chain {operator : Parser σ (α → α → α)} (safe : p.SuffixSafe)
    (operator_safe : operator.SuffixSafe) (finite : p.Finitary) (operators : operator.Finitary)
    (self : (x == x) = true) : ∃ scans, (chain p operator).Settles x scans :=
  settles_andThen_many safe (operator_safe.andThen safe) finite (operators.andThen finite) self

variable [ReflBEq σ]

protected theorem many (safe : p.SuffixSafe) (finite : p.Finitary) : p.many.Finitary :=
  fun _ => settles_many safe finite BEq.rfl

protected theorem sepBy (safe : p.SuffixSafe) (separator_safe : q.SuffixSafe) (finite : p.Finitary)
    (separator : q.Finitary) : (p.sepBy q).Finitary :=
  fun _ => settles_sepBy safe separator_safe finite separator BEq.rfl

end Repetition

/-- Whatever the number of results, from some budget on it is known which one is the first. -/
theorem first? (finite : p.Finitary) (x : Input σ) :
    ∃ found, ∀ᶠ budget in Filter.atTop, p.first? budget x = some found := by
  obtain ⟨rs, settles⟩ := finite x
  exact ⟨rs.head?, settles.mono fun _ all => Results.head?_of_toList? all⟩

end Finitary

/-! ## Following the first results -/

section FirstResults

variable [BEq σ] {p : Parser σ α} {budget : Nat} {x : Input σ}

/-- One round of the loop looks at nothing but the first result. -/
theorem followFirst_succ (p : Parser σ α) (budget steps : Nat) (seen : List α) (x : Input σ) :
    p.followFirst budget (steps + 1) seen x = (p.first? budget x).bind fun first =>
      first.elim (some (seen.reverse, x)) fun r =>
        if r.2 == x then some ((r.1 :: seen).reverse, r.2)
        else p.followFirst budget steps (r.1 :: seen) r.2 := by
  rw [followFirst, first?]
  cases p.run budget x <;> rfl

theorem followFirst_of_none (known : p.first? budget x = some none) (steps : Nat) (seen : List α) :
    p.followFirst budget (steps + 1) seen x = some (seen.reverse, x) := by
  rw [followFirst_succ, known]
  rfl

theorem followFirst_of_some {v : α} {rest : Input σ}
    (known : p.first? budget x = some (some (v, rest))) (steps : Nat) (seen : List α) :
    p.followFirst budget (steps + 1) seen x =
      if rest == x then some ((v :: seen).reverse, rest)
      else p.followFirst budget steps (v :: seen) rest := by
  rw [followFirst_succ, known]
  rfl

/-- The first result on `x` is known in the end, and if it consumes nothing this is seen. -/
def FollowableAt (p : Parser σ α) (x : Input σ) : Prop :=
  ∃ found, (∀ᶠ budget in Filter.atTop, p.first? budget x = some found) ∧
    ∀ v, found = some (v, x) → (x == x) = true

/-- A finitary parser can be followed on every input that equals itself. -/
theorem Finitary.followableAt (finite : p.Finitary) (self : (x == x) = true) : p.FollowableAt x := by
  obtain ⟨found, eventually⟩ := finite.first? x
  exact ⟨found, eventually, fun _ _ => self⟩

/-- Where the parser can be followed on whatever may be left of the input, the loop that follows the
first results stops, however many rounds more than symbols it is allowed. -/
theorem exists_followFirst (safe : p.SuffixSafe) {x : Input σ}
    (first : ∀ y : Input σ, y.symbols <:+ x.symbols → p.FollowableAt y) :
    ∃ vs rest, ∀ᶠ budget in Filter.atTop, ∀ steps seen, x.size < steps →
      p.followFirst budget steps seen x = some (seen.reverse ++ vs, rest) := by
  induction size : x.size using Nat.strongRecOn generalizing x with
  | _ n ih =>
    have enough_succ : ∀ steps, n < steps → ∃ more, steps = more + 1 ∧ n ≤ more :=
      fun steps enough => ⟨steps - 1, by omega, by omega⟩
    obtain ⟨found, eventually, seen_to_stay⟩ := first x List.suffix_rfl
    match found with
    | none =>
      refine ⟨[], x, ?_⟩
      filter_upwards [eventually] with budget known steps seen enough
      obtain ⟨more, rfl, -⟩ := enough_succ steps enough
      rw [followFirst_of_none known, List.append_nil]
    | some (v, mid) =>
      by_cases stays : mid == x
      case pos =>
        refine ⟨[v], mid, ?_⟩
        filter_upwards [eventually] with budget known steps seen enough
        obtain ⟨more, rfl, -⟩ := enough_succ steps enough
        rw [followFirst_of_some known, if_pos stays, List.reverse_cons]
      case neg =>
        obtain ⟨_, known⟩ := eventually.exists
        have suffix := safe.first? known
        have moves : mid ≠ x := by
          rintro rfl
          exact stays (seen_to_stay v rfl)
        have proper := Input.ProperSuffix.of_ne suffix moves
        obtain ⟨vs, rest, later⟩ := ih mid.size (size ▸ proper.shorter)
          (fun y behind => first y (behind.trans suffix)) rfl
        refine ⟨v :: vs, rest, ?_⟩
        filter_upwards [eventually, later] with budget known follows steps seen enough
        obtain ⟨more, rfl, within⟩ := enough_succ steps enough
        have shorter := proper.shorter
        rw [followFirst_of_some known, if_neg stays, follows more (v :: seen) (by omega),
          List.reverse_cons, List.append_assoc]
        rfl

/-- Following the first results, a repetition has one result. If it must not be empty, it has this
result or none. -/
theorem firstRun_settles (safe : p.SuffixSafe)
    (first : ∀ y : Input σ, y.symbols <:+ x.symbols → p.FollowableAt y) :
    ∃ vs rest, p.firstRun.Settles x [(vs, rest)] ∧
      p.firstRun1.Settles x (if vs = [] then [] else [(vs, rest)]) := by
  obtain ⟨vs, rest, stops⟩ := exists_followFirst safe first
  have loop : ∀ᶠ budget in Filter.atTop, p.followFirst budget budget [] x = some (vs, rest) := by
    filter_upwards [stops, Filter.eventually_gt_atTop x.size] with budget all enough
    exact all budget [] enough
  refine ⟨vs, rest, ?_, ?_⟩
  · filter_upwards [loop] with budget found
    unfold all firstRun
    dsimp only
    rw [found]
    rfl
  · filter_upwards [loop] with budget found
    unfold all firstRun1
    dsimp only
    rw [found]
    cases vs <;> rfl

theorem Finitary.firstRun_settles (safe : p.SuffixSafe) (finite : p.Finitary)
    (self : (x == x) = true) : ∃ vs rest, p.firstRun.Settles x [(vs, rest)] ∧
      p.firstRun1.Settles x (if vs = [] then [] else [(vs, rest)]) :=
  Parser.firstRun_settles safe fun _ suffix =>
    finite.followableAt (Input.beq_self_of_suffix self suffix)

end FirstResults

end Parser

end AllParses
