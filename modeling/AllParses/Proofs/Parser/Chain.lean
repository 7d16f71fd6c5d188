import AllParses.Proofs.Parser.Finitary
import AllParses.Proofs.Parser.Laws

/-!
# Chains group what one scan has found

A chain is scanned from left to right in one way, whichever way it is grouped: an operand, and then
any number of steps of an operator with its right operand. `Scan.At` says which scans there are, and
both kinds of chain give one result for each of them, in the same order (`chain_settles`).

* Grouped to the left, the value is built from the first operand on (`nestLeft`), grouped to the
  right, from the last one on (`nestRight`). The latter is computed by a loop that turns the steps
  round; its invariant is `foldl_turned`.
* Where each operator associates with the later ones the two values are equal (`nest_eq`).
* A chain of counting operators counts its own steps, so no operator is applied more than once and
  none is left out (`nestLeft_counted`, `nestRight_counted`).
-/
namespace AllParses.Parser

variable {σ α β : Type}

/-! ## Grouping the steps of a scan -/

/-- The operand `vₙ` under the last operator, `fₙ (… (f₂ (f₁ v₀ v₁) v₂) …) vₙ`. -/
def nestLeft (first : α) (steps : List (Step α)) : α :=
  steps.reverse.foldr (fun step before => step.1 before step.2) first

/-- The operand `v₀` under the first operator, `f₁ v₀ (f₂ v₁ (… (fₙ vₙ₋₁ vₙ) …))`. -/
def nestRight : (first : α) → (steps : List (Step α)) → α
  | first, [] => first
  | first, step :: steps => step.1 first (nestRight step.2 steps)

theorem nestLeft_concat (first : α) (steps : List (Step α)) (step : Step α) :
    nestLeft first (steps ++ [step]) = step.1 (nestLeft first steps) step.2 := by
  simp [nestLeft]

/-- The first step may as well be taken before the others. -/
theorem nestLeft_cons (first : α) (step : Step α) (steps : List (Step α)) :
    nestLeft first (step :: steps) = nestLeft (step.1 first step.2) steps := by
  simp [nestLeft]

theorem groupLeft_eq (first : α) (steps : List (Step α)) :
    groupLeft first steps = nestLeft first steps := by
  induction steps generalizing first with
  | nil => rfl
  | cons step steps ih => rw [nestLeft_cons, ← ih]; rfl

/-- When the steps have been turned round, the operators that are pending join what is on their left
to what the later steps are grouped to. -/
theorem foldl_turned (first : α) (steps : List (Step α)) (pending : List (α × (α → α → α))) :
    let turned := steps.foldl (fun (turned : List (α × (α → α → α)) × α) step =>
      ((turned.2, step.1) :: turned.1, step.2)) (pending, first)
    turned.1.foldl (fun acc left => left.2 left.1 acc) turned.2 =
      pending.foldl (fun acc left => left.2 left.1 acc) (nestRight first steps) := by
  induction steps generalizing first pending with
  | nil => rfl
  | cons step steps ih => exact ih step.2 ((first, step.1) :: pending)

theorem groupRight_eq (first : α) (steps : List (Step α)) :
    groupRight first steps = nestRight first steps :=
  foldl_turned first steps []

/-! ## Operators that associate -/

/-- Whether `f` or `g` is applied first makes no difference when `f` stands on the left. -/
def Associates (f g : α → α → α) : Prop :=
  ∀ a b c, f a (g b c) = g (f a b) c

/-- An operator may be moved into the grouping on its right, since it meets the first operator there
and no other. -/
theorem nestRight_of_associates {f : α → α → α} {steps : List (Step α)}
    (associates : ∀ step ∈ steps, Associates f step.1) (v w : α) :
    f v (nestRight w steps) = nestRight (f v w) steps := by
  cases steps with
  | nil => rfl
  | cons step steps => exact associates step List.mem_cons_self v w (nestRight step.2 steps)

theorem nest_eq {steps : List (Step α)}
    (associate : steps.Pairwise fun earlier later => Associates earlier.1 later.1) (first : α) :
    nestLeft first steps = nestRight first steps := by
  induction steps generalizing first with
  | nil => rfl
  | cons step steps ih =>
    obtain ⟨associates, later⟩ := List.pairwise_cons.mp associate
    calc nestLeft first (step :: steps)
        = nestLeft (step.1 first step.2) steps := nestLeft_cons first step steps
      _ = nestRight (step.1 first step.2) steps := ih later _
      _ = step.1 first (nestRight step.2 steps) :=
        (nestRight_of_associates associates first step.2).symm

/-! ## Operators that count -/

/-- An operator on values that know how many operators they are made with. -/
def counted (combine : α → α → α) (left right : α × Nat) : α × Nat :=
  (combine left.1 right.1, left.2 + right.2 + 1)

/-- Applies functions to the operators and the operands of some steps. -/
def mapSteps (f : (α → α → α) → β → β → β) (g : α → β) (steps : List (Step α)) : List (Step β) :=
  steps.map fun step => (f step.1, g step.2)

theorem nestLeft_counted (first : α) (steps : List (Step α)) :
    nestLeft (first, 0) (mapSteps counted (·, 0) steps) =
      (nestLeft first steps, steps.length) := by
  induction steps using List.reverseRecOn with
  | nil => rfl
  | append_singleton steps step ih =>
    rw [mapSteps] at ih ⊢
    rw [List.map_append, List.map_singleton, nestLeft_concat, nestLeft_concat, ih,
      List.length_append]
    rfl

theorem nestRight_counted (first : α) (steps : List (Step α)) :
    nestRight (first, 0) (mapSteps counted (·, 0) steps) =
      (nestRight first steps, steps.length) := by
  induction steps generalizing first with
  | nil => rfl
  | cons step steps ih =>
    rw [mapSteps] at ih ⊢
    rw [List.map_cons, nestRight, nestRight, ih]
    simp [counted]

/-! ## Scanning -/

section Scanning

variable [DecidableEq σ]

/-- Applying a function to what is repeated. -/
theorem runsFrom_map (f : α → β) (p : Parser σ α) (budget steps : Nat) (x : Input σ) :
    (p.map f).runsFrom budget steps x =
      (p.runsFrom budget steps x).map fun run => (run.1.map f, run.2) := by
  induction steps generalizing x with
  | zero => rfl
  | succ steps ih =>
    rw [runsFrom_succ, runsFrom_succ, run_map, Results.flatMap_map, Results.map_flatMap]
    congr 1
    funext r
    dsimp only
    split
    case isTrue => rfl
    case isFalse =>
      rw [ih, Results.map_append, Results.map_append, Results.map_append, Results.map_map,
        Results.map_map, Results.map_map]
      rfl

theorem many_map (f : α → β) (p : Parser σ α) : (p.map f).many = p.many.map (List.map f) := by
  ext budget x
  case run =>
    rw [run_many, run_map, run_many, runsFrom_map, Results.map_append]
    rfl
  case starts => rfl

/-- Functions on the operands and on the operators can be applied after the scan. -/
theorem chain_map (f : (α → α → α) → β → β → β) (g : α → β) (operand : Parser σ α)
    (operator : Parser σ (α → α → α)) :
    chain (operand.map g) (operator.map f) =
      (chain operand operator).map fun scan => (g scan.1, mapSteps f g scan.2) := by
  have step : (operator.map f).andThen (operand.map g) =
      (operator.andThen operand).map fun step => (f step.1, g step.2) := by
    rw [map_andThen, andThen_map, map_map]
    rfl
  rw [chain, step, many_map, map_andThen, andThen_map, map_map]
  rfl

variable (operand : Parser σ α) (operator : Parser σ (α → α → α))

theorem leftAssociative_eq : leftAssociative operand operator =
    (chain operand operator).map fun scan => nestLeft scan.1 scan.2 := by
  simp only [leftAssociative, groupLeft_eq]

theorem rightAssociative_eq : rightAssociative operand operator =
    (chain operand operator).map fun scan => nestRight scan.1 scan.2 := by
  simp only [rightAssociative, groupRight_eq]

theorem leftAssociative_counted :
    leftAssociative (operand.map (·, 0)) (operator.map counted) =
      (chain operand operator).map fun scan => (nestLeft scan.1 scan.2, scan.2.length) := by
  simp only [leftAssociative_eq, chain_map, map_map, nestLeft_counted]

theorem rightAssociative_counted :
    rightAssociative (operand.map (·, 0)) (operator.map counted) =
      (chain operand operator).map fun scan => (nestRight scan.1 scan.2, scan.2.length) := by
  simp only [rightAssociative_eq, chain_map, map_map, nestRight_counted]

end Scanning

/-- What one scan has found, and what it has left. -/
structure Scan (σ α : Type) where
  first : α
  steps : List (Step α)
  rest : Input σ

section Scans

variable {operands : Input σ → List (α × Input σ)}
  {operators : Input σ → List ((α → α → α) × Input σ)}

/-- The steps of a scan from `x` on: each takes one of the operators and behind it one of the
operands. Every step but possibly the last one consumes something. -/
inductive StepsAt (operands : Input σ → List (α × Input σ))
    (operators : Input σ → List ((α → α → α) × Input σ)) :
    Input σ → List (Step α) → Input σ → Prop where
  | stop (x : Input σ) : StepsAt operands operators x [] x
  | step {x mid next rest : Input σ} {combine : α → α → α} {v : α} {steps : List (Step α)}
    (operator : (combine, mid) ∈ operators x) (operand : (v, next) ∈ operands mid)
    (moves : steps ≠ [] → next ≠ x) (later : StepsAt operands operators next steps rest) :
    StepsAt operands operators x ((combine, v) :: steps) rest

/-- The scan takes one of the operands on `x` and goes on with steps. -/
def Scan.At (operands : Input σ → List (α × Input σ))
    (operators : Input σ → List ((α → α → α) × Input σ)) (x : Input σ) (scan : Scan σ α) : Prop :=
  ∃ mid, (scan.first, mid) ∈ operands x ∧ StepsAt operands operators mid scan.steps scan.rest

/-- The operators with what may follow them as right operands. -/
def stepResults (operands : Input σ → List (α × Input σ))
    (operators : Input σ → List ((α → α → α) × Input σ)) (x : Input σ) :
    List (Step α × Input σ) :=
  (operators x).flatMap fun r => (operands r.2).map fun s => ((r.1, s.1), s.2)

theorem mem_stepResults_iff {x next : Input σ} {combine : α → α → α} {v : α} :
    ((combine, v), next) ∈ stepResults operands operators x ↔
      ∃ mid, (combine, mid) ∈ operators x ∧ (v, next) ∈ operands mid := by
  simp [stepResults]

/-- The steps of scans are what runs of operators with operands collect. -/
theorem stepsAt_iff_exists_run {x rest : Input σ} {steps : List (Step α)} :
    StepsAt operands operators x steps rest ↔
      ∃ run, IsRun (stepResults operands operators) x run ∧ run.outcome = (steps, rest) := by
  constructor
  · intro at_x
    induction at_x with
    | stop x => exact ⟨.stop x, .stop x, rfl⟩
    | @step x mid next rest combine v steps operator operand moves later ih =>
      obtain ⟨run, isRun, collects⟩ := ih
      obtain ⟨values, left⟩ := Prod.mk.inj collects
      obtain ⟨i, chosen⟩ := List.getElem?_of_mem (mem_stepResults_iff.mpr ⟨mid, operator, operand⟩)
      refine ⟨run.cons i (combine, v), .step chosen (fun more => moves ?_) isRun, ?_⟩
      · rintro rfl
        exact more (isRun.choices_eq_nil_iff.mpr values)
      · rw [Run.outcome, Run.cons, values, left]
  · rintro ⟨run, isRun, collects⟩
    induction isRun generalizing steps with
    | stop x =>
      obtain ⟨rfl, rfl⟩ := Prod.mk.inj collects
      exact .stop x
    | @step x next i step run chosen moves later ih =>
      obtain ⟨rfl, left⟩ := Prod.mk.inj collects
      obtain ⟨mid, operator, operand⟩ := mem_stepResults_iff.mp (List.mem_of_getElem? chosen)
      exact .step operator operand (fun more => moves (later.choices_eq_nil_iff.not.mpr more))
        (ih (congrArg (Prod.mk run.values) left))

/-- Every operator of a scan is one that was read somewhere. -/
theorem StepsAt.exists_operator {x rest : Input σ} {steps : List (Step α)}
    (at_x : StepsAt operands operators x steps rest) :
    ∀ step ∈ steps, ∃ y, ∃ r ∈ operators y, r.1 = step.1 := by
  induction at_x with
  | stop => simp
  | @step x mid next rest combine v steps operator operand moves later ih =>
    intro step member
    rcases List.mem_cons.mp member with rfl | among
    · exact ⟨x, _, operator, rfl⟩
    · exact ih step among

end Scans

/-! ## Both kinds of chain -/

section Chains

variable [DecidableEq σ] {operand : Parser σ α} {operator : Parser σ (α → α → α)}
  {operands : Input σ → List (α × Input σ)}
  {operators : Input σ → List ((α → α → α) × Input σ)}

/-- What is scanned in the end are all scans and nothing else. -/
theorem chain_settles (safe : operand.SuffixSafe) (operator_safe : operator.SuffixSafe)
    (read : ∀ y, operand.Settles y (operands y)) (joins : ∀ y, operator.Settles y (operators y))
    (x : Input σ) :
    ∃ scans : List (Scan σ α), (∀ scan, scan ∈ scans ↔ scan.At operands operators x) ∧
      (chain operand operator).Settles x
        (scans.map fun scan => ((scan.first, scan.steps), scan.rest)) := by
  have step : ∀ y, (operator.andThen operand).Settles y (stepResults operands operators y) :=
    fun y => (joins y).andThen (fun r => operands r.2) fun r _ => read r.2
  have step_safe : (operator.andThen operand).SuffixSafe := operator_safe.andThen safe
  have runs : ∀ y, (operator.andThen operand).many.Settles y
      ((runsWithin (stepResults operands operators) (y.size + 1) y).map Run.outcome) :=
    fun y => (settlesMany_runsWithin step_safe step .of_refl (Nat.lt_succ_self y.size)).settles
  have members : ∀ y run, run ∈ runsWithin (stepResults operands operators) (y.size + 1) y ↔
      IsRun (stepResults operands operators) y run := fun y run => mem_runs_iff step_safe step .of_refl
  refine ⟨(operands x).flatMap fun r => (runsWithin (stepResults operands operators) (r.2.size + 1)
    r.2).map fun run => ⟨r.1, run.values, run.rest⟩, fun scan => ?_, ?_⟩
  · simp only [List.mem_flatMap, List.mem_map, members, Scan.At, stepsAt_iff_exists_run]
    constructor
    · rintro ⟨⟨v, mid⟩, first, run, isRun, rfl⟩
      exact ⟨mid, first, run, isRun, rfl⟩
    · rintro ⟨mid, first, run, isRun, collects⟩
      obtain ⟨values, left⟩ := Prod.mk.inj collects
      exact ⟨(scan.first, mid), first, run, isRun, by rw [values, left]⟩
  · have scanned := (read x).andThen _ fun r _ => runs r.2
    rw [List.map_flatMap]
    simpa only [List.map_map, Function.comp_def, Run.outcome, chain] using scanned

/-- The two kinds of chain give one result for each scan of operands and operators, in the same order
and with the same rest. The value is the scan grouped to the left or to the right, and of `n`
operators each is applied once. Where all operators associate with each other the results are the
same. -/
theorem chains_group_scans (safe : operand.SuffixSafe) (operator_safe : operator.SuffixSafe)
    (read : ∀ y, operand.Settles y (operands y)) (joins : ∀ y, operator.Settles y (operators y))
    (x : Input σ) :
    ∃ scans : List (Scan σ α), (∀ scan, scan ∈ scans ↔ scan.At operands operators x) ∧
      (leftAssociative operand operator).Settles x
        (scans.map fun scan => (nestLeft scan.first scan.steps, scan.rest)) ∧
      (rightAssociative operand operator).Settles x
        (scans.map fun scan => (nestRight scan.first scan.steps, scan.rest)) ∧
      ((∀ y z, ∀ r ∈ operators y, ∀ s ∈ operators z, Associates r.1 s.1) →
        ∃ rs, (leftAssociative operand operator).Settles x rs ∧
          (rightAssociative operand operator).Settles x rs) ∧
      (leftAssociative (operand.map (·, 0)) (operator.map counted)).Settles x
        (scans.map fun scan =>
          ((nestLeft scan.first scan.steps, scan.steps.length), scan.rest)) ∧
      (rightAssociative (operand.map (·, 0)) (operator.map counted)).Settles x
        (scans.map fun scan =>
          ((nestRight scan.first scan.steps, scan.steps.length), scan.rest)) := by
  obtain ⟨scans, members, settles⟩ := chain_settles safe operator_safe read joins x
  have grouped : ∀ {γ : Type} (f : α × List (Step α) → γ),
      ((chain operand operator).map f).Settles x
        (scans.map fun scan => (f (scan.first, scan.steps), scan.rest)) := by
    intro γ f
    have values := settles.map f
    rwa [List.map_map] at values
  simp only [leftAssociative_eq operand, rightAssociative_eq operand, leftAssociative_counted,
    rightAssociative_counted]
  refine ⟨scans, members, grouped _, grouped _, fun associate => ?_, grouped _, grouped _⟩
  have same : ∀ scan ∈ scans, nestLeft scan.first scan.steps = nestRight scan.first scan.steps := by
    intro scan member
    obtain ⟨mid, -, steps⟩ := (members scan).mp member
    refine nest_eq (List.pairwise_of_forall_mem_list fun earlier among later among' => ?_) _
    obtain ⟨y, r, one, first⟩ := steps.exists_operator earlier among
    obtain ⟨z, s, other, second⟩ := steps.exists_operator later among'
    rw [← first, ← second]
    exact associate y z r one s other
  refine ⟨_, grouped _, ?_⟩
  rw [List.map_congr_left fun scan member => by rw [same scan member]]
  exact grouped _

end Chains

/-- One digit, as a number. -/
def digit : Parser Char Int :=
  (satisfy Char.isDigit).map fun c => c.toNat - 48

/-- The sign `-`, which may stand for either of two operators. -/
def dash (f g : Int → Int → Int) : Parser Char (Int → Int → Int) :=
  ((symbol '-').map fun _ => f).either ((symbol '-').map fun _ => g)

theorem dash_settles (f g : Int → Int → Int) (y : Input Char) :
    ∃ rs, (dash f g).Settles y rs ∧ ∀ r ∈ rs, r.1 = f ∨ r.1 = g := by
  obtain ⟨signs, read⟩ := Finitary.symbol '-' y
  refine ⟨_, (read.map fun _ => f).either (read.map fun _ => g), fun r member => ?_⟩
  rcases List.mem_append.mp member with one | other
  · obtain ⟨_, -, rfl⟩ := List.mem_map.mp one
    exact .inl rfl
  · obtain ⟨_, -, rfl⟩ := List.mem_map.mp other
    exact .inr rfl

/-- In `9-2-1` each sign is a difference or a product. Of the seven scans four go to the end of the
text, and they are grouped to different values where a difference is the last operator. Where each
sign is a sum, with or without a carry, the grouping makes no difference. -/
theorem digits_group_scans :
    (∃ operands operators, ∃ scans : List (Scan Char Int),
      (∀ y, digit.Settles y (operands y)) ∧ (∀ y, (dash (· - ·) (· * ·)).Settles y (operators y)) ∧
      (∀ scan, scan ∈ scans ↔ scan.At operands operators (.ofString "9-2-1")) ∧
      scans.map (fun scan => (nestLeft scan.first scan.steps, scan.steps.length)) =
        [(6, 2), (7, 2), (7, 1), (17, 2), (18, 2), (18, 1), (9, 0)] ∧
      scans.map (fun scan => (nestRight scan.first scan.steps, scan.steps.length)) =
        [(8, 2), (7, 2), (7, 1), (9, 2), (18, 2), (18, 1), (9, 0)]) ∧
    ∃ rs, (leftAssociative digit (dash (· + ·) (· + · + 1))).Settles (.ofString "9-2-1") rs ∧
      (rightAssociative digit (dash (· + ·) (· + · + 1))).Settles (.ofString "9-2-1") rs := by
  have safe : digit.SuffixSafe := (SuffixSafe.satisfy _).map _
  have dash_safe : ∀ f g, (dash f g).SuffixSafe := fun f g =>
    ((SuffixSafe.symbol '-').map _).either ((SuffixSafe.symbol '-').map _)
  have finite : digit.Finitary := (Finitary.satisfy _).map _
  choose operands read using finite
  constructor
  · choose operators joins _ using dash_settles (· - ·) (· * ·)
    obtain ⟨scans, members, -, -, -, left, right⟩ :=
      chains_group_scans safe (dash_safe _ _) read joins (.ofString "9-2-1")
    have counting : (chain (digit.map (·, 0)) ((dash (· - ·) (· * ·)).map counted)).Steady :=
      Steady.andThen (((Steady.satisfy _).map _).map _) (Steady.many (Steady.andThen
        ((((Steady.symbol '-').map _).either ((Steady.symbol '-').map _)).map _)
        (((Steady.satisfy _).map _).map _)))
    have known : ((leftAssociative (digit.map (·, 0)) ((dash (· - ·) (· * ·)).map counted)).all 6
        (.ofString "9-2-1")).map (List.map Prod.fst) =
          some [(6, 2), (7, 2), (7, 1), (17, 2), (18, 2), (18, 1), (9, 0)] := rfl
    have known' : ((rightAssociative (digit.map (·, 0)) ((dash (· - ·) (· * ·)).map counted)).all 6
        (.ofString "9-2-1")).map (List.map Prod.fst) =
          some [(8, 2), (7, 2), (7, 1), (9, 2), (18, 2), (18, 1), (9, 0)] := rfl
    obtain ⟨rs, all, values⟩ := Option.map_eq_some_iff.mp known
    obtain ⟨rs', all', values'⟩ := Option.map_eq_some_iff.mp known'
    rw [← left.unique ((counting.map _).settles all), List.map_map] at values
    rw [← right.unique ((counting.map _).settles all'), List.map_map] at values'
    exact ⟨operands, operators, scans, read, joins, members, values, values'⟩
  · choose operators joins sums using dash_settles (· + ·) (· + · + 1)
    obtain ⟨-, -, -, -, same, -, -⟩ :=
      chains_group_scans safe (dash_safe _ _) read joins (.ofString "9-2-1")
    refine same fun y z r one s other a b c => ?_
    rcases sums y r one with first | first <;> rcases sums z s other with second | second <;>
      rw [first, second] <;> dsimp only <;> omega

end AllParses.Parser
