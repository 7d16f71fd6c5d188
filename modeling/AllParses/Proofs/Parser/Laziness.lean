import AllParses.Proofs.Parser.FirstRun
import AllParses.Proofs.Parser.Query

/-!
# What is not needed has no influence

A consumer of a result set asks for one result after the other, and what it sees at a position is
a result, the end of the set, or no answer at all (`Results.nth`). Two sets that look alike at the
first `n` positions cannot be told apart by a consumer that stops there, whatever stands behind:
further results without end, the end, or a cut.

So everything is stated by agreement up to a position (`Results.AgreeUpTo`). A choice agrees with its
first branch as far as that branch has results. Filtering keeps as much of an agreement as there are
accepted results in it, which is what a question about parses of the whole input rests on: it has its
answer with the last full parse that it asks for. The two runs that are compared may have different
budgets.

The call of a parser is made before anything is asked for. A parser that looks for a result at once, as
a loop does, may not come back from its call, so even who asks for no result waits for it
(`eager_call_has_influence`).
-/
namespace AllParses

namespace Results

variable {α : Type}

/-- What is seen at a position: a result, or nothing when the set ends before. The outer `none` says
that the set is cut before the position. -/
def nth : Nat → Results α → Option (Option α)
  | _, done => some none
  | _, cut => none
  | 0, item a _ => some (some a)
  | n + 1, item _ t => (t ()).nth n

theorem nth_zero (r : Results α) : r.nth 0 = r.head? := by
  cases r <;> rfl

/-- The sets look alike at the first `n` positions. -/
def AgreeUpTo (n : Nat) (r s : Results α) : Prop :=
  ∀ k < n, r.nth k = s.nth k

namespace AgreeUpTo

variable {n m : Nat} {r s : Results α} {t u : Unit → Results α}

theorem zero (r s : Results α) : r.AgreeUpTo 0 s :=
  fun _ bound => absurd bound (Nat.not_lt_zero _)

theorem refl (n : Nat) (r : Results α) : r.AgreeUpTo n r :=
  fun _ _ => rfl

theorem mono (agree : r.AgreeUpTo n s) (fewer : m ≤ n) : r.AgreeUpTo m s :=
  fun k bound => agree k (Nat.lt_of_lt_of_le bound fewer)

theorem item (a : α) (agree : (t ()).AgreeUpTo n (u ())) :
    (Results.item a t).AgreeUpTo (n + 1) (.item a u) := by
  intro k bound
  cases k with
  | zero => rfl
  | succ k => exact agree k (Nat.lt_of_succ_lt_succ bound)

/-- Sets that agree on their first position have the same shape there. -/
theorem succ_cases (agree : r.AgreeUpTo (n + 1) s) :
    (r = done ∧ s = done) ∨ (r = cut ∧ s = cut) ∨
      ∃ a t u, r = .item a t ∧ s = .item a u ∧ (t ()).AgreeUpTo n (u ()) := by
  have first := agree 0 (Nat.succ_pos n)
  cases r with
  | done => cases s <;> simp_all [nth]
  | cut => cases s <;> simp_all [nth]
  | item a t =>
    cases s with
    | done => simp [nth] at first
    | cut => simp [nth] at first
    | item b u =>
      obtain rfl : a = b := by simpa [nth] using first
      exact .inr (.inr ⟨a, t, u, rfl, rfl, fun k bound => agree (k + 1) (Nat.succ_lt_succ bound)⟩)

/-- Who asks for the first `n` results only cannot tell the sets apart. -/
theorem take_eq (agree : r.AgreeUpTo n s) : take n (fun _ => r) = take n fun _ => s := by
  induction n generalizing r s with
  | zero => rfl
  | succ n ih =>
    obtain ⟨rfl, rfl⟩ | ⟨rfl, rfl⟩ | ⟨a, t, u, rfl, rfl, later⟩ := agree.succ_cases
    · rfl
    · rfl
    · have tails : take n t = take n u := ih later
      exact congrArg (fun tail => Results.item a fun _ => tail) tails

/-- The filtered sets agree on as many positions as there are accepted results in what is common. -/
theorem filter (accept : α → Bool) (agree : r.AgreeUpTo m s)
    (enough : n ≤ (r.items.take m).countP accept) :
    (r.filter accept).AgreeUpTo n (s.filter accept) := by
  induction m generalizing n r s with
  | zero =>
    obtain rfl : n = 0 := by simpa using enough
    exact zero _ _
  | succ m ih =>
    obtain ⟨rfl, rfl⟩ | ⟨rfl, rfl⟩ | ⟨a, t, u, rfl, rfl, later⟩ := agree.succ_cases
    · exact refl n _
    · exact refl n _
    · rw [items_item, List.take_succ_cons, List.countP_cons] at enough
      unfold Results.filter
      by_cases accepted : accept a = true
      · rw [if_pos accepted, if_pos accepted]
        rw [if_pos accepted] at enough
        cases n with
        | zero => exact zero _ _
        | succ n => exact item a (ih later (Nat.le_of_succ_le_succ enough))
      · rw [if_neg accepted, if_neg accepted]
        rw [if_neg accepted] at enough
        exact ih later enough

/-- What is appended does not show before the results in front of it have been passed. -/
theorem append {n : Nat} {r : Results α} (enough : n ≤ r.items.length) (s : Unit → Results α) :
    (r.append s).AgreeUpTo n r := by
  induction r generalizing n with
  | done =>
    obtain rfl : n = 0 := by simpa using enough
    exact zero _ _
  | cut => exact refl n _
  | item a t ih =>
    cases n with
    | zero => exact zero _ _
    | succ n => exact item a (ih () (Nat.le_of_succ_le_succ enough))

theorem take (n : Nat) (r : Unit → Results α) : (Results.take n r).AgreeUpTo n (r ()) := by
  induction n generalizing r with
  | zero => exact zero _ _
  | succ n ih =>
    unfold Results.take
    cases r () with
    | done => exact refl _ _
    | cut => exact refl _ _
    | item a t => exact item a (ih t)

end AgreeUpTo

variable {r : Unit → Results α}

/-- The first `n` results are known as soon as `n` results are held. -/
theorem toList?_take_of_le {n : Nat} (enough : n ≤ (r ()).items.length) :
    (take n r).toList? = some ((r ()).items.take n) := by
  induction n generalizing r with
  | zero => rfl
  | succ n ih =>
    unfold take
    cases shape : r () with
    | done => simp [shape] at enough
    | cut => simp [shape] at enough
    | item a t =>
      rw [shape] at enough
      rw [toList?, ih (Nat.le_of_succ_le_succ enough)]
      rfl

/-- The answer about fewer results is a beginning of the answer about more of them. -/
theorem toList?_take_of_take {n m : Nat} {as : List α} (fewer : n ≤ m)
    (known : (take m r).toList? = some as) : (take n r).toList? = some (as.take n) := by
  have common : (take m r).AgreeUpTo n (r ()) := (AgreeUpTo.take m r).mono fewer
  have same : take n (fun _ => take m r) = take n r := common.take_eq
  rw [← same]
  exact toList?_take n known

end Results

namespace Parser

open Results (AgreeUpTo)

variable {σ α : Type} {p p' : Parser σ α} {budget budget' n m : Nat} {x : Input σ}

/-! ## Branches behind the results that are asked for -/

/-- A parser that holds as many results as are asked for has come back from its call, unless none is
asked for. -/
theorem starts_of_le (enough : n ≤ (p.run budget x).items.length)
    (asked : 1 ≤ n ∨ p.starts budget x = true) : p.starts budget x = true := by
  rcases asked with some_result | started
  · refine starts_of_ne_cut fun stuck => ?_
    rw [stuck, Results.items_cut, List.length_nil] at enough
    omega
  · exact started

theorem firstN_of_le (enough : n ≤ (p.run budget x).items.length)
    (asked : 1 ≤ n ∨ p.starts budget x = true) :
    p.firstN budget x n = some ((p.run budget x).items.take n) := by
  rw [firstN, run_limit_of_starts (starts_of_le enough asked)]
  exact Results.toList?_take_of_le enough

/-- Without results to tell them apart, it is the calls that tell parsers apart. -/
theorem run_limit_zero (p : Parser σ α) (budget : Nat) (x : Input σ) :
    (p.limit 0).run budget x = if p.starts budget x then .done else .cut := rfl

theorem run_limit_of_agreeUpTo (agree : (p.run budget x).AgreeUpTo n (p'.run budget' x)) :
    (p.limit n).run budget x = (p'.limit n).run budget' x ↔
      (n = 0 → p.starts budget x = p'.starts budget' x) := by
  cases n with
  | zero =>
    rw [run_limit_zero, run_limit_zero]
    cases p.starts budget x <;> cases p'.starts budget' x <;> simp
  | succ n =>
    rw [run_limit_succ, run_limit_succ]
    exact iff_of_true agree.take_eq (absurd · n.succ_ne_zero)

theorem firstN_of_agreeUpTo (agree : (p.run budget x).AgreeUpTo n (p'.run budget' x)) :
    p.firstN budget x n = p'.firstN budget' x n ↔
      (n = 0 → p.starts budget x = p'.starts budget' x) := by
  constructor
  · rintro same rfl
    rw [firstN, firstN, run_limit_zero, run_limit_zero] at same
    cases started : p.starts budget x <;> cases started' : p'.starts budget' x <;>
      simp [started, started', Results.toList?] at same ⊢
  · exact fun started => congrArg Results.toList? ((run_limit_of_agreeUpTo agree).mpr started)

theorem first?_of_agreeUpTo (agree : (p.run budget x).AgreeUpTo 1 (p'.run budget' x)) :
    p.first? budget x = p'.first? budget' x := by
  have same := agree 0 Nat.zero_lt_one
  rwa [Results.nth_zero, Results.nth_zero] at same

theorem either_agreeUpTo (enough : n ≤ (p.run budget x).items.length) (q : Parser σ α) :
    ((p.either q).run budget x).AgreeUpTo n (p.run budget x) :=
  .append enough _

theorem anyOf_agreeUpTo (enough : n ≤ (p.run budget x).items.length) (qs : List (Parser σ α)) :
    ((anyOf (p :: qs)).run budget x).AgreeUpTo n (p.run budget x) := by
  rw [anyOf_cons]
  exact either_agreeUpTo enough _

theorem firstN_orElse (asked : 1 ≤ n) (enough : n ≤ (p.run budget x).items.length)
    (q : Parser σ α) : (p.orElse q).firstN budget x n = p.firstN budget x n := by
  have unchanged := run_orElse (Nat.lt_of_lt_of_le asked enough) q
  obtain ⟨n, rfl⟩ := Nat.exists_eq_add_one_of_ne_zero (Nat.ne_of_gt asked)
  rw [firstN, firstN, run_limit_succ, run_limit_succ, unchanged]

/-! ## Questions about parses of the whole input -/

/-- Full parses are asked for when the call has come back. -/
theorem firstFullParses_of_starts (started : p.starts budget x = true) (n : Nat) :
    p.firstFullParses budget x n =
      (Results.take n fun _ => (p.full.run budget x).map Prod.fst).toList? := by
  rw [firstFullParses, run_limit_of_starts (p := p.full) started, Results.map_take]

theorem firstFullParses_succ (p : Parser σ α) (budget n : Nat) (x : Input σ) :
    p.firstFullParses budget x (n + 1) =
      (Results.take (n + 1) fun _ => (p.full.run budget x).map Prod.fst).toList? := by
  rw [firstFullParses, run_limit_succ, Results.map_take]

theorem starts_of_firstFullParses {values : List α}
    (known : p.firstFullParses budget x n = some values) : p.starts budget x = true := by
  by_contra stuck
  rw [Bool.not_eq_true] at stuck
  rw [firstFullParses, cut_of_not_starts (p.full.limit n) budget x stuck] at known
  cases known

theorem fullParse_eq_ok_iff {v : α} :
    p.fullParse budget x = some (.ok v) ↔ p.firstFullParses budget x 1 = some [v] := by
  rw [firstFullParses_succ, Results.toList?_take_one, fullParse]
  cases p.full.run budget x <;> simp [Results.head?, Results.map]

theorem isAmbiguous_iff :
    p.isAmbiguous budget x = some true ↔ ∃ v w, p.firstFullParses budget x 2 = some [v, w] := by
  rw [firstFullParses_succ]
  unfold isAmbiguous
  cases p.full.run budget x with
  | done => simp [Results.take, Results.map, Results.toList?]
  | cut => simp [Results.take, Results.map, Results.toList?]
  | item r tail =>
    rw [Results.map, Results.take]
    dsimp only
    rw [Results.toList?, Results.toList?_take_one]
    cases tail () <;> simp [Results.head?, Results.map]

theorem firstFullParses_of_le {many : List α} (fewer : n ≤ m)
    (known : p.firstFullParses budget x m = some many) :
    p.firstFullParses budget x n = some (many.take n) := by
  have started := starts_of_firstFullParses known
  rw [firstFullParses_of_starts started] at known ⊢
  exact Results.toList?_take_of_take fewer known

/-- As many parses of the whole input are known as are held. -/
theorem exists_firstFullParses (asked : 1 ≤ n)
    (enough : n ≤ (p.run budget x).items.countP fun r => r.2.isEmpty) :
    ∃ values, values.length = n ∧ p.firstFullParses budget x n = some values := by
  obtain ⟨n, rfl⟩ := Nat.exists_eq_add_one_of_ne_zero (Nat.ne_of_gt asked)
  have held : n + 1 ≤ ((p.full.run budget x).map Prod.fst).items.length := by
    rwa [Results.items_map, List.length_map, run_full, Results.items_filter,
      ← List.countP_eq_length_filter]
  refine ⟨_, ?_, (firstFullParses_succ p budget n x).trans (Results.toList?_take_of_le held)⟩
  rw [List.length_take, Nat.min_eq_left held]

/-- Where results agree up to the last full parse that is asked for, so do the answers. -/
theorem firstFullParses_of_agreeUpTo (asked : 1 ≤ n)
    (agree : (p.run budget x).AgreeUpTo m (p'.run budget' x))
    (enough : n ≤ ((p.run budget x).items.take m).countP fun r => r.2.isEmpty) :
    p.firstFullParses budget x n = p'.firstFullParses budget' x n := by
  have full : (p.full.run budget x).AgreeUpTo n (p'.full.run budget' x) := agree.filter _ enough
  have same := (run_limit_of_agreeUpTo full).mpr (absurd · (Nat.ne_of_gt asked))
  exact congrArg (fun parses => (parses.map Prod.fst).toList?) same

/-- Where there are so many full parses in what is common, they are known for both. -/
theorem exists_common_fullParses (asked : 1 ≤ n)
    (agree : (p.run budget x).AgreeUpTo m (p'.run budget' x))
    (enough : n ≤ ((p.run budget x).items.take m).countP fun r => r.2.isEmpty) :
    ∃ values, values.length = n ∧ p.firstFullParses budget x n = some values ∧
      p'.firstFullParses budget' x n = some values := by
  have held := Nat.le_trans enough (List.take_sublist m _).countP_le
  obtain ⟨values, length, known⟩ := exists_firstFullParses asked held
  exact ⟨values, length, known,
    (firstFullParses_of_agreeUpTo asked agree enough).symm.trans known⟩

theorem fullParse_of_firstFullParses {v : α} {values : List α} (asked : 1 ≤ n)
    (known : p.firstFullParses budget x n = some (v :: values)) :
    p.fullParse budget x = some (.ok v) :=
  fullParse_eq_ok_iff.mpr (firstFullParses_of_le asked known)

theorem isAmbiguous_of_firstFullParses {v w : α} {values : List α} (asked : 2 ≤ n)
    (known : p.firstFullParses budget x n = some (v :: w :: values)) :
    p.isAmbiguous budget x = some true :=
  isAmbiguous_iff.mpr ⟨v, w, firstFullParses_of_le asked known⟩

/-- What a question does not need has no influence on its answer. Nothing is asked of the parsers, of
the budgets or of what stands behind the results that are looked at. Only the call of the parser is
made in any case: who asks for no result at all learns whether it comes back.

* Of a choice, of a choice from a list and of an alternative, the first `n` results are those of the
  first parser `p` when it has so many. The other parser may be any one.
* Parsers that agree on the first `n` results have the same answers to questions about these, for `n`
  equal to zero exactly if both calls come back or neither does.
* Parsers that agree up to their `k`-th parse of the whole input have the same first `k` full parses.
  The first of them is the full parse of both, and two make the input ambiguous for both.
* The questions about full parses are answered consistently, and on an input with a finite result
  set every one of them is answered in the end. -/
theorem unneeded_results_have_no_influence (p : Parser σ α) (x : Input σ) :
    (∀ budget n, n ≤ (p.run budget x).items.length →
      (1 ≤ n ∨ p.starts budget x = true →
        p.firstN budget x n = some ((p.run budget x).items.take n)) ∧
      ∀ q : Parser σ α, (p.either q).firstN budget x n = p.firstN budget x n ∧
        (anyOf [p, q]).firstN budget x n = p.firstN budget x n ∧
        (1 ≤ n → (p.orElse q).firstN budget x n = p.firstN budget x n)) ∧
    (∀ (p' : Parser σ α) (budget budget' n : Nat),
      (p.run budget x).AgreeUpTo n (p'.run budget' x) →
        ((p.limit n).run budget x = (p'.limit n).run budget' x ↔
          (n = 0 → p.starts budget x = p'.starts budget' x)) ∧
        (p.firstN budget x n = p'.firstN budget' x n ↔
          (n = 0 → p.starts budget x = p'.starts budget' x)) ∧
        (1 ≤ n → p.firstOnly.run budget x = p'.firstOnly.run budget' x ∧
          p.first? budget x = p'.first? budget' x)) ∧
    (∀ (p' : Parser σ α) (budget budget' m k : Nat), 1 ≤ k →
      (p.run budget x).AgreeUpTo m (p'.run budget' x) →
      k ≤ ((p.run budget x).items.take m).countP (fun r => r.2.isEmpty) →
        (∃ values, values.length = k ∧ p.firstFullParses budget x k = some values ∧
          p'.firstFullParses budget' x k = some values) ∧
        (∃ v, p.fullParse budget x = some (.ok v) ∧ p'.fullParse budget' x = some (.ok v)) ∧
        (2 ≤ k → p.isAmbiguous budget x = some true ∧ p'.isAmbiguous budget' x = some true)) ∧
    (∀ budget, (∀ v, p.fullParse budget x = some (.ok v) ↔
        p.firstFullParses budget x 1 = some [v]) ∧
      (p.isAmbiguous budget x = some true ↔
        ∃ v w, p.firstFullParses budget x 2 = some [v, w]) ∧
      ∀ n m many, n ≤ m → p.firstFullParses budget x m = some many →
        p.firstFullParses budget x n = some (many.take n)) ∧
    ∀ rs, p.Settles x rs → ∀ᶠ budget in Filter.atTop,
      p.CompleteParses budget x ((rs.filter fun r => r.2.isEmpty).map Prod.fst) := by
  refine ⟨?branches, ?beginnings, ?full_parses, ?consistent, ?finite⟩
  case branches =>
    intro budget n enough
    refine ⟨firstN_of_le enough, fun q => ⟨?_, ?_, fun asked => firstN_orElse asked enough q⟩⟩
    · exact (firstN_of_agreeUpTo (either_agreeUpTo enough q)).mpr fun _ => rfl
    · exact (firstN_of_agreeUpTo (anyOf_agreeUpTo enough [q])).mpr fun _ => rfl
  case beginnings =>
    intro p' budget budget' n agree
    refine ⟨run_limit_of_agreeUpTo agree, firstN_of_agreeUpTo agree, fun asked => ?_⟩
    have first : (p.run budget x).AgreeUpTo 1 (p'.run budget' x) := agree.mono asked
    exact ⟨(run_limit_of_agreeUpTo first).mpr (absurd · Nat.one_ne_zero), first?_of_agreeUpTo first⟩
  case full_parses =>
    intro p' budget budget' m k asked agree enough
    obtain ⟨values, length, known, known'⟩ := exists_common_fullParses asked agree enough
    obtain ⟨v, others, rfl⟩ := List.exists_cons_of_length_pos (length ▸ asked)
    refine ⟨⟨_, length, known, known'⟩, ⟨v, fullParse_of_firstFullParses asked known,
      fullParse_of_firstFullParses asked known'⟩, fun two => ?_⟩
    rw [List.length_cons] at length
    obtain ⟨w, others, rfl⟩ := List.exists_cons_of_length_pos (by omega : 0 < others.length)
    exact ⟨isAmbiguous_of_firstFullParses two known, isAmbiguous_of_firstFullParses two known'⟩
  case consistent =>
    exact fun budget => ⟨fun v => fullParse_eq_ok_iff, isAmbiguous_iff,
      fun n m many => firstFullParses_of_le⟩
  case finite =>
    exact fun rs settles => settles.mono fun _ all => completeParses_of_all all

/-- The letter `a`, twice over, and then whatever else there is. -/
def letterTwiceOr (q : Parser Char Char) : Parser Char Char :=
  (symbol 'a').either ((symbol 'a').either q)

/-- Nothing read in endlessly many ways. -/
def endlessly : Parser Char Char :=
  (Grammar.endless.symbolParser {} (.nonterminal "S")).map fun _ => 'z'

/-- Behind two readings of the letter there is no answer for the one parser, and there are readings
without end for the other. Who asks for two readings does not notice. -/
theorem letterTwiceOr_answers :
    (∀ budget, (letterTwiceOr exhausted).all budget (.ofString "a") = none) ∧
    (∀ budget, ((letterTwiceOr endlessly).run budget (.ofString "a")).items.length = budget + 2) ∧
    (∀ q, ((letterTwiceOr exhausted).either q).firstN 0 (.ofString "a") 2 =
      some [('a', .ofString ""), ('a', .ofString "")]) ∧
    (letterTwiceOr endlessly).firstN 7 (.ofString "a") 2 =
      some [('a', .ofString ""), ('a', .ofString "")] ∧
    (letterTwiceOr endlessly).fullParse 7 (.ofString "a") = some (.ok 'a') ∧
    (letterTwiceOr exhausted).isAmbiguous 0 (.ofString "a") = some true ∧
    (letterTwiceOr endlessly).isAmbiguous 7 (.ofString "a") = some true ∧
    (letterTwiceOr (succeed 'z')).Settles (.ofString "a")
      [('a', .ofString ""), ('a', .ofString ""), ('z', .ofString "a")] ∧
    ∀ᶠ budget in Filter.atTop,
      (letterTwiceOr (succeed 'z')).firstFullParses budget (.ofString "a") 5 = some ['a', 'a'] := by
  obtain ⟨branches, beginnings, full_parses, -, -⟩ :=
    unneeded_results_have_no_influence (letterTwiceOr exhausted) (.ofString "a")
  obtain ⟨-, -, -, -, finite⟩ :=
    unneeded_results_have_no_influence (letterTwiceOr (succeed 'z')) (.ofString "a")
  have agree : ((letterTwiceOr exhausted).run 0 (.ofString "a")).AgreeUpTo 2
      ((letterTwiceOr endlessly).run 7 (.ofString "a")) := by
    intro k bound
    rcases Nat.lt_succ_iff_lt_or_eq.mp bound with first | rfl
    · obtain rfl := Nat.lt_one_iff.mp first
      rfl
    · rfl
  obtain ⟨held, same⟩ := branches 0 2 (by decide)
  have known := held (.inl (by decide))
  obtain ⟨-, few, -⟩ := beginnings _ 0 7 2 agree
  have few := few.mpr (absurd · (by decide))
  obtain ⟨values, ⟨v, first, first'⟩, two⟩ := full_parses _ 0 7 2 2 (by decide) agree (by decide)
  obtain rfl : 'a' = v := by
    have computed : (letterTwiceOr exhausted).fullParse 0 (.ofString "a") = some (.ok 'a') := rfl
    simpa using computed.symm.trans first
  have settles : (letterTwiceOr (succeed 'z')).Settles (.ofString "a")
      [('a', .ofString ""), ('a', .ofString ""), ('z', .ofString "a")] := .of_run fun _ => rfl
  refine ⟨fun _ => rfl, fun budget => ?_, fun q => (same q).1.trans known, few.symm.trans known, first',
    (two (by decide)).1, (two (by decide)).2, settles, ?_⟩
  · have many : (endlessly.run budget (.ofString "a")).items.length = budget := by
      rw [endlessly, run_map, Results.items_map, List.length_map]
      exact Grammar.length_items_endless budget budget _
    exact congrArg (· + 2) many
  · exact (finite _ settles).mono fun _ complete => complete.several 5

/-- The loop that follows the first results of a left recursive symbol is told from failure by who asks
for none of its results, since the call for it does not come back. -/
theorem eager_call_has_influence :
    ∃ p : Parser Char (List ParseTree),
      p = (Grammar.leftRecursive.symbolParser {} (.nonterminal "A")).firstRun ∧
      ∀ budget x, (p.run budget x).AgreeUpTo 0 (fail.run budget x) ∧
        (p.limit 0).run budget x = .cut ∧ p.firstN budget x 0 = none ∧
        ((fail : Parser Char (List ParseTree)).limit 0).run budget x = .done ∧
        (fail : Parser Char (List ParseTree)).firstN budget x 0 = some [] := by
  refine ⟨_, rfl, fun budget x => ⟨.zero _ _, ?_⟩⟩
  have unknown := Grammar.run_leftRecursive budget x
  have stuck : ((Grammar.leftRecursive.symbolParser {} (.nonterminal "A")).firstRun.limit 0).run
      budget x = .cut := by
    rw [run_limit_zero, starts_firstRun_of_cut unknown]
    rfl
  exact ⟨stuck, congrArg Results.toList? stuck, rfl, rfl⟩

end Parser

end AllParses
