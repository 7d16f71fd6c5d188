import AllParses.Proofs.Grammar.Budget
import AllParses.Proofs.Parser.Finitary
import AllParses.Proofs.Parser.Steady
import AllParses.Proofs.Remainders

/-!
# The loop and the recursion

A repetition comes in two forms. `many` continues every result, and its runs unfold one inside the
other; `firstRun` is a loop that follows first results and remembers what it has seen. The loop gives
what the recursion gives first (`firstRun_eq_many`, `firstRun1_eq_many1`).

Both are driven by the first result of each step: the loop goes on from it or stops at it
(`runBehind`), and the first run of the recursion is the first continuation of that result, since
every result is continued, be it by the empty run only. The induction is on the steps that are left.
It compares the two under the same budget, so nothing is asked of the parser, and each form is cut
exactly when the other one is. Whether they are not cut in the end depends on the parser: it must be
known on the way which result is the first, and that it consumes nothing, if so
(`unfollowable_firstRun`).
-/
namespace AllParses

namespace Parser

section

variable {σ α : Type} [BEq σ]

/-- What the loop has seen before stands in front of what it finds. -/
theorem followFirst_seen (p : Parser σ α) (budget steps : Nat) (seen : List α) (x : Input σ) :
    p.followFirst budget steps seen x =
      (p.followFirst budget steps [] x).map fun run => (seen.reverse ++ run.1, run.2) := by
  induction steps generalizing seen x with
  | zero => rfl
  | succ steps ih =>
    rw [followFirst_succ, followFirst_succ]
    cases p.first? budget x with
    | none => rfl
    | some first =>
      cases first with
      | none => simp
      | some r =>
        dsimp only [Option.bind_some, Option.elim_some]
        by_cases stays : r.2 == x
        · simp [stays]
        · rw [if_neg stays, if_neg stays, ih (r.1 :: seen), ih [r.1], Option.map_map]
          simp [Function.comp_def]

/-- The run that begins with the result `r` on `x` and then follows first results. A result that
consumes nothing ends it. -/
def runBehind (p : Parser σ α) (budget steps : Nat) (x : Input σ) (r : α × Input σ) :
    Option (List α × Input σ) :=
  (if r.2 == x then some ([], r.2) else p.followFirst budget steps [] r.2).map
    fun run => (r.1 :: run.1, run.2)

theorem followFirst_nil_succ (p : Parser σ α) (budget steps : Nat) (x : Input σ) :
    p.followFirst budget (steps + 1) [] x = (p.first? budget x).bind fun first =>
      first.elim (some ([], x)) (p.runBehind budget steps x) := by
  rw [followFirst_succ]
  congr 1
  funext first
  cases first with
  | none => rfl
  | some r =>
    dsimp only [Option.elim_some]
    rw [followFirst_seen, runBehind]
    split <;> rfl

/-- One unfolding of the recursion, when what follows is known to begin with what the loop finds. -/
theorem head?_runsFrom_succ {p : Parser σ α} {budget steps : Nat}
    (later : ∀ y, ((p.runsFrom budget steps y).append fun _ => .single ([], y)).head? =
      (p.followFirst budget steps [] y).map some) (x : Input σ) :
    (p.runsFrom budget (steps + 1) x).head? = (p.first? budget x).bind fun first =>
      first.elim (some none) fun r => (p.runBehind budget steps x r).map some := by
  have behind : ∀ r : α × Input σ, (if r.2 == x then Results.single ([r.1], r.2)
      else ((p.runsFrom budget steps r.2).append fun _ => .single ([], r.2)).map
        fun run => (r.1 :: run.1, run.2)).head? = (p.runBehind budget steps x r).map some := by
    intro r
    unfold runBehind
    split
    · rfl
    · rw [Results.head?_map, later, Option.map_map, Option.map_map]
      rfl
  rw [runsFrom_succ, Results.head?_flatMap]
  · congr 1
    funext first
    cases first with
    | none => rfl
    | some r => exact behind r
  · intro r
    rw [behind r]
    cases p.runBehind budget steps x r <;> simp

/-- The loop finds the first of all runs. -/
theorem head?_runs (p : Parser σ α) (budget steps : Nat) (x : Input σ) :
    ((p.runsFrom budget steps x).append fun _ => .single ([], x)).head? =
      (p.followFirst budget steps [] x).map some := by
  induction steps generalizing x with
  | zero => rfl
  | succ steps ih =>
    rw [Results.head?_append, head?_runsFrom_succ ih, followFirst_nil_succ]
    cases p.first? budget x with
    | none => rfl
    | some first =>
      cases first with
      | none => rfl
      | some r =>
        dsimp only [Option.bind_some, Option.elim_some]
        cases p.runBehind budget steps x r <;> rfl

/-- The loop is the recursion cut off behind its first result. -/
theorem firstRun_eq_many (p : Parser σ α) : p.firstRun.run = p.many.firstOnly.run := by
  funext budget x
  rw [run_firstOnly, Results.take_one, run_many, head?_runs]
  unfold firstRun
  dsimp only
  cases p.followFirst budget budget [] x <;> rfl

/-- One or more occurrences begin with the run behind the first result. -/
theorem first?_many1 (p : Parser σ α) (budget : Nat) (x : Input σ) :
    p.many1.first? (budget + 1) x = (p.first? (budget + 1) x).bind fun first =>
      first.elim (some none) fun r => (p.runBehind (budget + 1) budget x r).map some :=
  head?_runsFrom_succ (head?_runs p (budget + 1) budget) x

theorem firstRun1_eq_many1 (p : Parser σ α) : p.firstRun1.run = p.many1.firstOnly.run := by
  funext budget x
  rw [run_firstOnly, Results.take_one]
  unfold firstRun1
  cases budget with
  | zero => rfl
  | succ budget =>
    have first_run := first?_many1 p budget x
    rw [first?] at first_run
    dsimp only
    rw [first_run, followFirst_nil_succ]
    cases p.first? (budget + 1) x with
    | none => rfl
    | some first =>
      cases first with
      | none => rfl
      | some r =>
        dsimp only [Option.bind_some, Option.elim_some, runBehind]
        generalize (if r.2 == x then some ([], r.2) else
          p.followFirst (budget + 1) budget [] r.2) = later
        cases later <;> rfl

end

/-! ## What both give in the end -/

section

variable {σ α : Type} {p : Parser σ α} {x : Input σ}

theorem refuses_iff : p.Settles x [] ↔
    ∀ᶠ budget in Filter.atTop, p.first? budget x = some none :=
  Filter.eventually_congr (.of_forall fun _ => Results.toList?_eq_nil_iff)

/-- The set of the first result is known when it is known which result is the first, if any. -/
theorem firstOnly_settles_iff (found : Option (α × Input σ)) :
    p.firstOnly.Settles x found.toList ↔
      ∀ᶠ budget in Filter.atTop, p.first? budget x = some found := by
  refine Filter.eventually_congr (.of_forall fun budget => ?_)
  rw [all, run_firstOnly, Results.toList?_take_one, ← first?]
  cases p.first? budget x with
  | none => simp
  | some first => cases first <;> cases found <;> simp

variable [BEq σ]

/-- A repetition of one or more occurrences fails where the parser does and nowhere else. -/
theorem many1_refuses_iff : p.many1.Settles x [] ↔ p.Settles x [] := by
  rw [refuses_iff, refuses_iff]
  refine Filter.eventually_congr ?_
  filter_upwards [Filter.eventually_gt_atTop 0] with budget positive
  obtain ⟨budget, rfl⟩ := Nat.exists_eq_add_one_of_ne_zero (Nat.ne_of_gt positive)
  rw [first?_many1]
  cases p.first? (budget + 1) x with
  | none => simp
  | some first => cases first <;> simp

theorem firstRun1_refuses_iff : p.firstRun1.Settles x [] ↔ p.Settles x [] := by
  have first_run : p.many1.firstOnly.Settles x [] ↔ _ := firstOnly_settles_iff none
  rw [Settles.congr_run (firstRun1_eq_many1 p), first_run, ← refuses_iff, many1_refuses_iff]

/-- The loop that follows first results agrees with the recursion that continues every result, on
every parser and under every budget: it gives what that recursion gives with all but the first result
left out. When one or more occurrences are asked for it fails where the parser fails. If the parser
leaves suffixes and can be followed on whatever may be left of the input, then the loop has one result,
which is the first one of the recursion; and when one or more occurrences are asked for it has this
result too, or none where the parser fails. -/
theorem firstRun_agrees_with_many (p : Parser σ α) :
    p.firstRun.run = p.many.firstOnly.run ∧ p.firstRun1.run = p.many1.firstOnly.run ∧
    (∀ x, p.firstRun1.Settles x [] ↔ p.Settles x []) ∧
    ∀ x : Input σ, p.SuffixSafe → (∀ y : Input σ, y.symbols <:+ x.symbols → p.FollowableAt y) →
      ∃ vs rest, p.firstRun.Settles x [(vs, rest)] ∧
        (∀ᶠ budget in Filter.atTop, p.many.first? budget x = some (some (vs, rest))) ∧
        (p.Settles x [] ∧ p.firstRun1.Settles x [] ∨
          ¬ p.Settles x [] ∧ p.firstRun1.Settles x [(vs, rest)] ∧
            ∀ᶠ budget in Filter.atTop, p.many1.first? budget x = some (some (vs, rest))) := by
  refine ⟨firstRun_eq_many p, firstRun1_eq_many1 p, fun x => firstRun1_refuses_iff, ?_⟩
  intro x safe followable
  obtain ⟨vs, rest, settles, settles1⟩ := firstRun_settles safe followable
  have first_run := (Settles.congr_run (firstRun_eq_many p)).mp settles
  refine ⟨vs, rest, settles, (firstOnly_settles_iff (some (vs, rest))).mp first_run, ?_⟩
  by_cases empty : vs = []
  · rw [if_pos empty] at settles1
    exact .inl ⟨firstRun1_refuses_iff.mp settles1, settles1⟩
  · rw [if_neg empty] at settles1
    have first_run1 := (Settles.congr_run (firstRun1_eq_many1 p)).mp settles1
    refine .inr ⟨fun refused => ?_, settles1,
      (firstOnly_settles_iff (some (vs, rest))).mp first_run1⟩
    simpa using settles1.unique (firstRun1_refuses_iff.mpr refused)

end

/-- The letter `a`, or else endlessly many ways of reading nothing. -/
def letterOrEndless : Parser Char ParseTree :=
  ((symbol 'a').map fun _ => .terminal "a").either
    (Grammar.endless.symbolParser {} (.nonterminal "S"))

theorem letterOrEndless_steady : letterOrEndless.Steady :=
  ((Steady.symbol 'a').map _).either fun _ _ x more => Grammar.approximates_symbolParser more _ x

/-- One unit of the budget is enough for a first result. -/
theorem letterOrEndless_followable (y : Input Char) : letterOrEndless.FollowableAt y := by
  have known : ∃ found, letterOrEndless.first? 1 y = some found := by
    obtain ⟨letter, shape⟩ : ∃ letter, (symbol 'a').run 1 y = .ofOption letter := ⟨_, rfl⟩
    rw [first?, letterOrEndless, run_either, run_map, shape]
    cases letter with
    | some r => exact ⟨_, rfl⟩
    | none =>
      have one_result := Grammar.length_items_endless 1 1 y
      change ∃ found, ((Grammar.endless.symbolWithin {} 1 (.nonterminal "S")).run 1 y).head? = _
      generalize (Grammar.endless.symbolWithin {} 1 (.nonterminal "S")).run 1 y = r at one_result
      cases r with
      | done => cases one_result
      | cut => cases one_result
      | item r tail => exact ⟨_, rfl⟩
  obtain ⟨found, known⟩ := known
  refine ⟨found, ?_, fun _ _ => BEq.rfl⟩
  filter_upwards [Filter.eventually_ge_atTop 1] with budget more
  exact letterOrEndless_steady.first? more known

/-- On `aab` the loop reads both letters and then nothing, once. Behind the letters the parser has
results without end, so the recursion has too; its first result is that of the loop. -/
theorem letterOrEndless_firstRun :
    letterOrEndless.SuffixSafe ∧
    (∀ y, letterOrEndless.FollowableAt y) ∧
    (∀ budget, (letterOrEndless.run budget (.ofString "b")).items.length = budget) ∧
    ∃ vs, vs = [.terminal "a", .terminal "a", .nonterminal "S" []] ∧
      letterOrEndless.firstRun.Settles (.ofString "aab") [(vs, .ofString "b")] ∧
      letterOrEndless.firstRun1.Settles (.ofString "aab") [(vs, .ofString "b")] ∧
      ∀ᶠ budget in Filter.atTop,
        letterOrEndless.many.first? budget (.ofString "aab") = some (some (vs, .ofString "b")) := by
  have safe : letterOrEndless.SuffixSafe :=
    ((SuffixSafe.symbol 'a').map _).either (Grammar.symbolParser_suffixSafe _ _ _)
  obtain ⟨-, -, -, settle⟩ := firstRun_agrees_with_many letterOrEndless
  obtain ⟨vs, rest, loop, eventually, outcome⟩ :=
    settle (.ofString "aab") safe fun y _ => letterOrEndless_followable y
  have known : letterOrEndless.many.first? 4 (.ofString "aab") =
      some (some ([.terminal "a", .terminal "a", .nonterminal "S" []], .ofString "b")) := rfl
  obtain ⟨budget, found, more⟩ := (eventually.and (Filter.eventually_ge_atTop 4)).exists
  have same := letterOrEndless_steady.many.first? more known
  obtain ⟨rfl, rfl⟩ := by simpa using found.symm.trans same
  refine ⟨safe, letterOrEndless_followable, fun budget => ?endless, _, rfl, loop, ?nonempty, eventually⟩
  case endless => exact Grammar.length_items_endless budget budget (.ofString "b")
  case nonempty =>
    rcases outcome with ⟨refused, -⟩ | ⟨-, settles, -⟩
    · have letter : letterOrEndless.first? 0 (.ofString "aab") =
          some (some (.terminal "a", .ofString "ab")) := rfl
      obtain ⟨budget, none⟩ := (refuses_iff.mp refused).exists
      have kept := letterOrEndless_steady.first? (Nat.zero_le budget) letter
      rw [none] at kept
      cases kept
    · exact settles

section

variable {σ α : Type} [BEq σ] {p : Parser σ α} {x : Input σ} {budget : Nat}

/-- The loop does not come to its end when the parser does not come to a first result. -/
theorem followFirst_of_cut (unknown : p.run budget x = .cut) :
    p.followFirst budget budget [] x = none := by
  cases budget with
  | zero => rfl
  | succ budget => rw [followFirst, unknown]

theorem starts_firstRun_of_cut (unknown : p.run budget x = .cut) :
    p.firstRun.starts budget x = false :=
  congrArg Option.isSome (followFirst_of_cut unknown)

theorem starts_firstRun1_of_cut (unknown : p.run budget x = .cut) :
    p.firstRun1.starts budget x = false :=
  congrArg Option.isSome (followFirst_of_cut unknown)

end

theorem not_settles_of_cut {σ α : Type} {p : Parser σ α} {x : Input σ}
    (unknown : ∀ budget, p.run budget x = .cut) (rs : List (α × Input σ)) : ¬ p.Settles x rs := by
  intro settles
  obtain ⟨budget, all⟩ := settles.exists
  rw [Parser.all, unknown] at all
  cases all

/-- With a parser that never comes to a first result, as that of a left recursive grammar does not, the
loop has no result. Nor has it one where a parser that consumes nothing is not seen to do so. -/
theorem unfollowable_firstRun :
    (∃ p : Parser Char ParseTree, p = Grammar.leftRecursive.symbolParser {} (.nonterminal "A") ∧
      p.SuffixSafe ∧ ∀ x : Input Char,
        (∀ budget, p.firstRun.run budget x = .cut ∧ p.firstRun1.run budget x = .cut) ∧
        ¬ ∃ found, p.firstRun.Settles x [found]) ∧
    (epsilon : Parser Float Unit).SuffixSafe ∧
      (∀ budget, (epsilon : Parser Float Unit).firstRun.run budget .notANumber = .cut) ∧
      ¬ ∃ found, (epsilon : Parser Float Unit).firstRun.Settles .notANumber [found] := by
  have zero_width : ∀ budget, (epsilon : Parser Float Unit).firstRun.run budget .notANumber = .cut := by
    intro budget
    rw [firstRun_eq_many, run_firstOnly, run_many, runsFrom_eq_cut rfl Input.notANumber_differs]
    rfl
  refine ⟨⟨_, rfl, Grammar.symbolParser_suffixSafe _ _ _, fun x => ?recursive⟩, .epsilon, zero_width,
    fun ⟨_, settles⟩ => not_settles_of_cut zero_width _ settles⟩
  have unknown := fun budget => Grammar.run_leftRecursive budget x
  have loop : ∀ budget, (Grammar.leftRecursive.symbolParser {} (.nonterminal "A")).firstRun.run
      budget x = .cut := fun budget => cut_of_not_starts _ _ _ (starts_firstRun_of_cut (unknown budget))
  refine ⟨fun budget => ⟨loop budget, ?_⟩, fun ⟨_, settles⟩ => not_settles_of_cut loop _ settles⟩
  exact cut_of_not_starts _ _ _ (starts_firstRun1_of_cut (unknown budget))

end Parser

end AllParses
