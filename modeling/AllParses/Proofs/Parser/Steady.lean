import AllParses.Parser.Query
import AllParses.Parser.Repeat
import AllParses.Proofs.Results
import Mathlib.Order.Filter.AtTopBot.Basic

/-!
# Answers that no budget takes back

A steady parser carries its results on when the budget grows and never changes those it has given.
The combinators keep parsers steady. A question to a steady parser that is answered under some budget
has the same answer under every larger one, so it has one answer at most. `Answers` says that it has
one, from some budget on, and no other under any budget.
-/
namespace AllParses

namespace Parser

open Results (Approximates)

variable {σ α β : Type}

/-- A larger budget carries the results on from where they were cut. -/
def Steady (p : Parser σ α) : Prop :=
  ∀ small large x, small ≤ large → Approximates (p.run small x) (p.run large x)

namespace Steady

variable {p p' : Parser σ α} {q : Parser σ β}

/-- What does not depend on the budget is steady. -/
theorem of_run_eq (same : ∀ budget x, p.run budget x = p.run 0 x) : p.Steady := by
  intro small large x _
  rw [same small, same large]
  exact .refl _

protected theorem succeed (v : α) : (succeed v : Parser σ α).Steady :=
  of_run_eq fun _ _ => rfl

protected theorem satisfy (c : σ → Bool) : (satisfy c).Steady :=
  of_run_eq fun _ _ => rfl

protected theorem symbol [BEq σ] (c : σ) : (symbol c).Steady :=
  of_run_eq fun _ _ => rfl

protected theorem token [BEq σ] (cs : List σ) : (token cs).Steady :=
  of_run_eq fun _ _ => rfl

protected theorem map (f : α → β) (steady : p.Steady) : (p.map f).Steady :=
  fun small large x more => (steady small large x more).map _

protected theorem afterLayout [Alphabet σ] (steady : p.Steady) : p.afterLayout.Steady :=
  fun small large x => steady small large x.skipLayout

protected theorem either (first : p.Steady) (second : p'.Steady) : (p.either p').Steady :=
  fun small large x more => (first small large x more).append (second small large x more)

protected theorem andThen (first : p.Steady) (second : q.Steady) : (p.andThen q).Steady :=
  fun small large x more => (first small large x more).flatMap fun (_, rest) =>
    (second small large rest more).map _

protected theorem thenSkip (first : p.Steady) (second : q.Steady) : (p.thenSkip q).Steady :=
  (first.andThen second).map Prod.fst

protected theorem skipThen (first : p.Steady) (second : q.Steady) : (p.skipThen q).Steady :=
  (first.andThen second).map Prod.snd

protected theorem orElse (first : p.Steady) (second : p'.Steady) : (p.orElse p').Steady := by
  intro small large x more
  have below := first small large x more
  unfold Parser.orElse
  dsimp only
  generalize p.run small x = r at below
  generalize p.run large x = s at below
  cases below with
  | cut => exact .cut _
  | done => exact second small large x more
  | item a rest => exact .item a rest

protected theorem full (steady : p.Steady) : p.full.Steady :=
  fun small large x more => (steady small large x more).filter _

section Repetition

variable [BEq σ]

/-- The bound on the length of a run may grow along with the budget. -/
theorem runsFrom (steady : p.Steady) {small large : Nat} (more : small ≤ large) {steps steps' : Nat}
    (longer : steps ≤ steps') (x : Input σ) :
    Approximates (p.runsFrom small steps x) (p.runsFrom large steps' x) := by
  induction steps generalizing steps' x with
  | zero => exact .cut _
  | succ steps ih =>
    obtain ⟨steps', rfl⟩ := Nat.exists_eq_add_one_of_ne_zero (Nat.ne_of_gt (Nat.zero_lt_of_lt longer))
    rw [runsFrom_succ, runsFrom_succ]
    refine (steady small large x more).flatMap fun (v, rest) => ?_
    dsimp only
    split
    · exact .refl _
    · exact ((ih (Nat.le_of_succ_le_succ longer) rest).append (.refl _)).map _

protected theorem many1 (steady : p.Steady) : p.many1.Steady :=
  fun _ _ x more => steady.runsFrom more more x

protected theorem many (steady : p.Steady) : p.many.Steady :=
  steady.many1.either (.succeed [])

protected theorem sepBy (steady : p.Steady) (separator : q.Steady) : (p.sepBy q).Steady :=
  ((steady.andThen (separator.skipThen steady).many).map _).orElse (.succeed _)

/-- Following the first results never turns back. -/
theorem followFirst (steady : p.Steady) {small large : Nat} (more : small ≤ large)
    {steps steps' : Nat} (longer : steps ≤ steps') {seen : List α} {x : Input σ}
    {found : List α × Input σ} (known : p.followFirst small steps seen x = some found) :
    p.followFirst large steps' seen x = some found := by
  induction steps generalizing steps' seen x with
  | zero => cases known
  | succ steps ih =>
    obtain ⟨steps', rfl⟩ := Nat.exists_eq_add_one_of_ne_zero (Nat.ne_of_gt (Nat.zero_lt_of_lt longer))
    have below := steady small large x more
    unfold Parser.followFirst at known ⊢
    generalize p.run small x = r at below known
    generalize p.run large x = s at below
    cases below with
    | cut => cases known
    | done => exact known
    | item first rest =>
      dsimp only at known ⊢
      split
      case isTrue stays => rwa [if_pos stays] at known
      case isFalse moves =>
        rw [if_neg moves] at known
        exact ih (Nat.le_of_succ_le_succ longer) known

protected theorem firstRun1 (steady : p.Steady) : p.firstRun1.Steady := by
  intro small large x more
  unfold Parser.firstRun1
  dsimp only
  cases known : p.followFirst small small [] x with
  | none => exact .cut _
  | some found =>
    rw [steady.followFirst more more known]
    exact .refl _

end Repetition

end Steady

/-! ## Questions -/

/-- From some budget on the question has this answer, and under no budget it has another. -/
structure Answers (question : Nat → Option α) (answer : α) : Prop where
  eventually : ∀ᶠ budget in Filter.atTop, question budget = some answer
  only : ∀ budget other, question budget = some other → other = answer

namespace Answers

variable {question : Nat → Option α} {answer other : α}

theorem exists_budget (answers : Answers question answer) : ∃ budget, question budget = some answer :=
  answers.eventually.exists

/-- For a question whose answers are kept under larger budgets, the large budgets tell. -/
theorem of_eventually
    (kept : ∀ small large a, small ≤ large → question small = some a → question large = some a)
    (eventually : ∀ᶠ budget in Filter.atTop, question budget = some answer) :
    Answers question answer := by
  refine ⟨eventually, fun budget other known => ?_⟩
  obtain ⟨large, expected, more⟩ := (eventually.and (Filter.eventually_ge_atTop budget)).exists
  exact Option.some.inj ((kept budget large other more known).symm.trans expected)

/-- Where answers are kept, one budget tells as well. -/
theorem of_kept
    (kept : ∀ small large a, small ≤ large → question small = some a → question large = some a)
    {budget : Nat} (known : question budget = some answer) : Answers question answer :=
  of_eventually kept ((Filter.eventually_ge_atTop budget).mono fun large more =>
    kept budget large answer more known)

/-- A question that is answered by way of another one. -/
protected theorem map {β : Type} (f : α → β) (answers : Answers question answer) :
    Answers (fun budget => (question budget).map f) (f answer) where
  eventually := answers.eventually.mono fun budget known => by rw [known, Option.map_some]
  only budget other known := by
    obtain ⟨given, answered, rfl⟩ := Option.map_eq_some_iff.mp known
    rw [answers.only budget given answered]

theorem unique (one : Answers question answer) (two : Answers question other) : answer = other := by
  obtain ⟨budget, known⟩ := one.exists_budget
  exact two.only budget answer known

end Answers

namespace Steady

variable {p : Parser σ α} {small large : Nat} {x : Input σ}

theorem all {rs : List (α × Input σ)} (steady : p.Steady) (more : small ≤ large)
    (known : p.all small x = some rs) : p.all large x = some rs :=
  (steady small large x more).toList? known

theorem first? {found : Option (α × Input σ)} (steady : p.Steady) (more : small ≤ large)
    (known : p.first? small x = some found) : p.first? large x = some found :=
  (steady small large x more).head? known

theorem fullParse {answer : Except ParseError α} (steady : p.Steady) (more : small ≤ large)
    (known : p.fullParse small x = some answer) : p.fullParse large x = some answer := by
  obtain ⟨first, head, rfl⟩ := Option.map_eq_some_iff.mp known
  rw [Parser.fullParse, (steady.full small large x more).head? head]
  rfl

theorem isAmbiguous {answer : Bool} (steady : p.Steady) (more : small ≤ large)
    (known : p.isAmbiguous small x = some answer) : p.isAmbiguous large x = some answer := by
  have below := steady.full small large x more
  unfold Parser.isAmbiguous at known ⊢
  generalize p.full.run small x = r at below known
  generalize p.full.run large x = s at below
  cases below with
  | cut => cases known
  | done => exact known
  | item first rest =>
    obtain ⟨second, head, rfl⟩ := Option.map_eq_some_iff.mp known
    dsimp only
    rw [rest.head? head]
    rfl

end Steady

end Parser

end AllParses
