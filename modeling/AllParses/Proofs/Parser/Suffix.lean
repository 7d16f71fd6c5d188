import AllParses.Parser.Chain
import AllParses.Parser.Query
import AllParses.Proofs.Input
import AllParses.Proofs.Results

/-!
# Parsers that leave a suffix

A parser is `SuffixSafe` when every result that it ever holds leaves a suffix of the input. This is
asked under every budget, so it is about endless result sets as well as about finite ones.

What matches symbols drops them from the front, and the combinators keep parsers safe. In a
repetition the induction is on the length of a run: each occurrence leaves a suffix of what the one
before it has left.
-/
namespace AllParses

namespace Parser

variable {σ α β γ : Type}

/-- Whatever is left behind a result is a suffix of the input. -/
def SuffixSafe (p : Parser σ α) : Prop :=
  ∀ budget x v rest, (v, rest) ∈ (p.run budget x).items → rest.symbols <:+ x.symbols

namespace SuffixSafe

variable {p p' : Parser σ α} {q : Parser σ β}

theorem all {budget : Nat} {x : Input σ} {rs : List (α × Input σ)} (safe : p.SuffixSafe)
    (known : p.all budget x = some rs) : ∀ r ∈ rs, r.2.symbols <:+ x.symbols := by
  obtain ⟨-, rfl⟩ := Results.toList?_eq_some_iff.mp known
  exact fun r => safe budget x r.1 r.2

theorem first? {budget : Nat} {x rest : Input σ} {v : α} (safe : p.SuffixSafe)
    (known : p.first? budget x = some (some (v, rest))) : rest.symbols <:+ x.symbols := by
  obtain ⟨tail, shape⟩ := Results.head?_eq_some_iff.mp known
  apply safe budget x v rest
  simp [shape]

/-! ## Single matches -/

protected theorem fail : (fail : Parser σ α).SuffixSafe := by
  intro budget x v rest member
  simp at member

protected theorem exhausted : (exhausted : Parser σ α).SuffixSafe := by
  intro budget x v rest member
  simp at member

protected theorem succeed (v : α) : (succeed v : Parser σ α).SuffixSafe := by
  intro budget x w rest member
  obtain ⟨-, rfl⟩ : w = v ∧ rest = x := by simpa using member
  exact List.suffix_rfl

protected theorem epsilon : (epsilon : Parser σ Unit).SuffixSafe :=
  .succeed ()

protected theorem satisfy (c : σ → Bool) : (satisfy c).SuffixSafe := by
  intro budget x v rest member
  rw [run_satisfy, Results.mem_items_ofOption] at member
  obtain ⟨d, -, found⟩ := Option.map_eq_some_iff.mp member
  obtain ⟨-, rfl⟩ := Prod.mk.inj found
  rw [Input.symbols_tail]
  exact List.tail_suffix _

protected theorem symbol [BEq σ] (c : σ) : (symbol c).SuffixSafe :=
  .satisfy _

protected theorem token [BEq σ] (cs : List σ) : (token cs).SuffixSafe := by
  intro budget x v rest member
  rw [run_token] at member
  split at member
  · obtain ⟨-, rfl⟩ : v = cs ∧ rest = x.drop cs.length := by simpa using member
    exact List.drop_suffix _ _
  · simp at member

protected theorem literal [Alphabet σ] [BEq σ] (name : String) :
    (literal name : Parser σ Unit).SuffixSafe := by
  intro budget x v rest member
  rw [run_literal, Results.mem_items_ofOption] at member
  obtain ⟨left, stripped, found⟩ := Option.map_eq_some_iff.mp member
  obtain ⟨-, rfl⟩ := Prod.mk.inj found
  exact Input.suffix_of_strip? stripped

/-! ## Filters and layout -/

protected theorem map (f : α → β) (safe : p.SuffixSafe) : (p.map f).SuffixSafe := by
  intro budget x w rest member
  obtain ⟨v, inside, -⟩ := mem_items_map.mp member
  exact safe budget x v rest inside

protected theorem afterLayout [Alphabet σ] (safe : p.SuffixSafe) : p.afterLayout.SuffixSafe := by
  intro budget x v rest member
  exact (safe budget x.skipLayout v rest member).trans (Input.suffix_skipLayout x)

protected theorem limit (n : Nat) (safe : p.SuffixSafe) : (p.limit n).SuffixSafe := by
  intro budget x v rest member
  rw [items_run_limit] at member
  exact safe budget x v rest (List.mem_of_mem_take member)

protected theorem firstOnly (safe : p.SuffixSafe) : p.firstOnly.SuffixSafe :=
  safe.limit 1

protected theorem full (safe : p.SuffixSafe) : p.full.SuffixSafe := by
  intro budget x v rest member
  rw [run_full, Results.items_filter] at member
  exact safe budget x v rest (List.mem_of_mem_filter member)

/-! ## Choice and sequence -/

protected theorem either (first : p.SuffixSafe) (second : p'.SuffixSafe) :
    (p.either p').SuffixSafe := by
  intro budget x v rest member
  rcases Results.mem_items_append member with here | later
  · exact first budget x v rest here
  · exact second budget x v rest later

protected theorem anyOf {ps : List (Parser σ α)} (each : ∀ p ∈ ps, p.SuffixSafe) :
    (anyOf ps).SuffixSafe := by
  intro budget x v rest member
  obtain ⟨p, among, inside⟩ := mem_items_anyOf member
  exact each p among budget x v rest inside

protected theorem orElse (first : p.SuffixSafe) (second : p'.SuffixSafe) :
    (p.orElse p').SuffixSafe := by
  intro budget x v rest member
  unfold Parser.orElse at member
  dsimp only at member
  split at member
  case h_1 => exact second budget x v rest member
  case h_2 => simp at member
  case h_3 w tail shape =>
    apply first budget x v rest
    rwa [shape]

protected theorem andThen (first : p.SuffixSafe) (second : q.SuffixSafe) :
    (p.andThen q).SuffixSafe := by
  intro budget x vw rest member
  rw [run_andThen] at member
  obtain ⟨⟨v, mid⟩, before, after⟩ := Results.mem_items_flatMap member
  rw [Results.items_map, List.mem_map] at after
  obtain ⟨⟨w, rest'⟩, inside, same⟩ := after
  obtain ⟨-, rfl⟩ := Prod.mk.inj same
  exact (second budget mid w rest' inside).trans (first budget x v mid before)

protected theorem thenSkip (first : p.SuffixSafe) (second : q.SuffixSafe) :
    (p.thenSkip q).SuffixSafe :=
  (first.andThen second).map Prod.fst

protected theorem skipThen (first : p.SuffixSafe) (second : q.SuffixSafe) :
    (p.skipThen q).SuffixSafe :=
  (first.andThen second).map Prod.snd

protected theorem optional (safe : p.SuffixSafe) : p.optional.SuffixSafe :=
  (safe.map some).either (.succeed none)

protected theorem withDefault (v : α) (safe : p.SuffixSafe) : (p.withDefault v).SuffixSafe :=
  (safe.either (.succeed v)).firstOnly

protected theorem between {closing : Parser σ γ} (opening_safe : p.SuffixSafe)
    (safe : q.SuffixSafe) (closing_safe : closing.SuffixSafe) :
    (between p q closing).SuffixSafe :=
  (opening_safe.skipThen safe).thenSkip closing_safe

/-! ## Repetition -/

section Repetition

variable [BEq σ]

theorem runsFrom (safe : p.SuffixSafe) {budget steps : Nat} {x rest : Input σ} {vs : List α}
    (member : (vs, rest) ∈ (p.runsFrom budget steps x).items) : rest.symbols <:+ x.symbols := by
  induction steps generalizing x vs with
  | zero => simp at member
  | succ steps ih =>
    rw [runsFrom_succ] at member
    obtain ⟨⟨v, mid⟩, first, later⟩ := Results.mem_items_flatMap member
    have step := safe budget x v mid first
    dsimp only at later
    split at later
    case isTrue =>
      obtain ⟨-, rfl⟩ : vs = [v] ∧ rest = mid := by simpa using later
      exact step
    case isFalse =>
      rw [Results.items_map, List.mem_map] at later
      obtain ⟨⟨ws, rest'⟩, inside, same⟩ := later
      obtain ⟨-, rfl⟩ := Prod.mk.inj same
      rcases Results.mem_items_append inside with longer | ended
      · exact (ih longer).trans step
      · obtain ⟨-, rfl⟩ : ws = [] ∧ rest' = mid := by simpa using ended
        exact step

protected theorem many1 (safe : p.SuffixSafe) : p.many1.SuffixSafe := by
  intro budget x vs rest member
  exact safe.runsFrom member

protected theorem many (safe : p.SuffixSafe) : p.many.SuffixSafe :=
  safe.many1.either (.succeed [])

theorem followFirst (safe : p.SuffixSafe) {budget steps : Nat} {seen : List α} {x : Input σ}
    {found : List α × Input σ} (known : p.followFirst budget steps seen x = some found) :
    found.2.symbols <:+ x.symbols := by
  induction steps generalizing seen x with
  | zero => cases known
  | succ steps ih =>
    unfold Parser.followFirst at known
    split at known
    case h_1 => cases known
    case h_2 =>
      obtain rfl := Option.some.inj known
      exact List.suffix_rfl
    case h_3 v rest tail shape =>
      have step : rest.symbols <:+ x.symbols := by
        apply safe budget x v rest
        simp [shape]
      split at known
      · obtain rfl := Option.some.inj known
        exact step
      · exact (ih known).trans step

protected theorem firstRun (safe : p.SuffixSafe) : p.firstRun.SuffixSafe := by
  intro budget x vs rest member
  unfold Parser.firstRun at member
  dsimp only at member
  split at member
  case h_1 => simp at member
  case h_2 found known =>
    obtain rfl : (vs, rest) = found := by simpa using member
    exact safe.followFirst known

protected theorem firstRun1 (safe : p.SuffixSafe) : p.firstRun1.SuffixSafe := by
  intro budget x vs rest member
  unfold Parser.firstRun1 at member
  dsimp only at member
  split at member
  case h_1 => simp at member
  case h_2 => simp at member
  case h_3 w ws left known =>
    obtain ⟨-, rfl⟩ : vs = w :: ws ∧ rest = left := by simpa using member
    exact safe.followFirst known

protected theorem sepBy (safe : p.SuffixSafe) (separator : q.SuffixSafe) :
    (p.sepBy q).SuffixSafe :=
  ((safe.andThen (separator.skipThen safe).many).map _).orElse (.succeed [])

protected theorem chain {operator : Parser σ (α → α → α)} (safe : p.SuffixSafe)
    (operator_safe : operator.SuffixSafe) : (chain p operator).SuffixSafe :=
  safe.andThen (operator_safe.andThen safe).many

protected theorem leftAssociative {operator : Parser σ (α → α → α)} (safe : p.SuffixSafe)
    (operator_safe : operator.SuffixSafe) : (leftAssociative p operator).SuffixSafe :=
  (safe.chain operator_safe).map _

protected theorem rightAssociative {operator : Parser σ (α → α → α)} (safe : p.SuffixSafe)
    (operator_safe : operator.SuffixSafe) : (rightAssociative p operator).SuffixSafe :=
  (safe.chain operator_safe).map _

end Repetition

end SuffixSafe

end Parser

end AllParses
