import AllParses.Parser.Query
import AllParses.Proofs.Results

/-!
# Answers from complete results

Once all results of a parser are known, so is every answer about the parses of the whole input. The
answers are those about one list, the values of the results that leave nothing.
-/
namespace AllParses.Parser

variable {σ α : Type} {p : Parser σ α} {budget : Nat} {x : Input σ} {rs : List (α × Input σ)}

/-- The parses of the whole input are known to be these, in this order: the first one is given, as
many as are asked for, and two of them make the input ambiguous. -/
structure CompleteParses (p : Parser σ α) (budget : Nat) (x : Input σ) (values : List α) :
    Prop where
  first : p.fullParse budget x = some (values.head?.elim (.error .noFullParse) .ok)
  several : ∀ n, p.firstFullParses budget x n = some (values.take n)
  ambiguous : p.isAmbiguous budget x = some (decide (1 < values.length))

theorem completeParses_of_all (all : p.all budget x = some rs) :
    p.CompleteParses budget x ((rs.filter fun r => r.2.isEmpty).map Prod.fst) := by
  have full : (p.full.run budget x).toList? = some (rs.filter fun r => r.2.isEmpty) :=
    Results.toList?_filter _ all
  generalize rs.filter (fun r => r.2.isEmpty) = complete at full ⊢
  constructor
  · rw [fullParse, Results.head?_of_toList? full]
    cases complete <;> rfl
  · intro n
    have several := toList?_run_limit n full
    have values := Results.toList?_map Prod.fst several
    rwa [List.map_take] at values
  · unfold isAmbiguous
    generalize p.full.run budget x = found at full
    cases found with
    | cut => cases full
    | done =>
      obtain rfl := Option.some.inj full
      rfl
    | item r tail =>
      obtain ⟨others, rest, rfl⟩ := Option.map_eq_some_iff.mp full
      dsimp only
      rw [Results.head?_of_toList? rest]
      cases others <;> simp

end AllParses.Parser
