import AllParses.Proofs.Parser.Suffix

/-!
# One parser in two alphabets

Two parsers over different symbols may do the same on inputs that correspond to each other. Here a
function `place` says which input of the first parser belongs to an input of the second one. The
first parser mirrors the second one when it has the same results in the same order, with what is
left put in place. Combining parsers keeps this, under every budget and for endless result sets too.

The correspondence need only hold for what can be left of one input `whole`. In a sequence the
second parser goes on where the first one stops, so what is mirrored there is asked to leave
suffixes.
-/
namespace AllParses.Parser

variable {σ τ α β : Type} {place : Input τ → Input σ} {whole : Input τ}

/-- On the suffixes of `whole` the parser `p` gives what `q` gives, with what is left put in
place. -/
def Mirrors (place : Input τ → Input σ) (whole : Input τ) (p : Parser σ α) (q : Parser τ α) :
    Prop :=
  ∀ budget y, y.symbols <:+ whole.symbols →
    p.run budget (place y) = (q.run budget y).map fun r => (r.1, place r.2)

namespace Mirrors

variable {p p' : Parser σ α} {q q' : Parser τ α}

protected theorem fail : Mirrors place whole (fail : Parser σ α) fail :=
  fun _ _ _ => rfl

protected theorem exhausted : Mirrors place whole (exhausted : Parser σ α) exhausted :=
  fun _ _ _ => rfl

protected theorem succeed (v : α) : Mirrors place whole (succeed v) (succeed v) :=
  fun _ _ _ => rfl

protected theorem map (f : α → β) (mirrors : Mirrors place whole p q) :
    Mirrors place whole (p.map f) (q.map f) := by
  intro budget y behind
  rw [run_map, run_map, mirrors budget y behind, Results.map_map, Results.map_map]

protected theorem either (first : Mirrors place whole p q) (second : Mirrors place whole p' q') :
    Mirrors place whole (p.either p') (q.either q') := by
  intro budget y behind
  rw [run_either, run_either, first budget y behind, second budget y behind, Results.map_append]

protected theorem andThen {r : Parser σ β} {r' : Parser τ β} (safe : q.SuffixSafe)
    (first : Mirrors place whole p q) (second : Mirrors place whole r r') :
    Mirrors place whole (p.andThen r) (q.andThen r') := by
  intro budget y behind
  have next : ∀ s ∈ (q.run budget y).items,
      r.run budget (place s.2) = (r'.run budget s.2).map fun t => (t.1, place t.2) :=
    fun s member => second budget s.2 ((safe budget y s.1 s.2 member).trans behind)
  rw [run_andThen, run_andThen, first budget y behind, Results.flatMap_map, Results.map_flatMap]
  refine Results.flatMap_congr fun s member => ?_
  dsimp only
  rw [next s member, Results.map_map, Results.map_map]

/-- For the first results the calls have to come back on the same inputs too. -/
protected theorem limit (n : Nat) (mirrors : Mirrors place whole p q)
    (starts : ∀ budget y, p.starts budget (place y) = q.starts budget y) :
    Mirrors place whole (p.limit n) (q.limit n) := by
  intro budget y behind
  have alike := starts budget y
  cases started : q.starts budget y with
  | true =>
    rw [run_limit_of_starts started, run_limit_of_starts (alike.trans started),
      mirrors budget y behind, Results.map_take]
  | false =>
    rw [(q.limit n).cut_of_not_starts budget y started,
      (p.limit n).cut_of_not_starts budget (place y) (alike.trans started), Results.map]

theorem all {budget : Nat} {rs : List (α × Input τ)} (mirrors : Mirrors place whole p q)
    (known : q.all budget whole = some rs) :
    p.all budget (place whole) = some (rs.map fun r => (r.1, place r.2)) := by
  unfold Parser.all at *
  rw [mirrors budget whole List.suffix_rfl]
  exact Results.toList?_map _ known

end Mirrors

end AllParses.Parser
