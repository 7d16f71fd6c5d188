import AllParses.Parser.Compose
import Mathlib.Data.List.Basic

/-!
# Result sets that are cut later

With a larger budget a parser may go on where it was cut before. `Approximates` relates a set to
one that is cut later or not at all: the results that are held stay the same and in the same
order, and a finished set has nothing left to gain. Every operation on result sets respects it.

A set that is known to its end is a list, and the operations on such sets are those on lists.
Membership in composed sets is stated here too. It needs no finished sets in the direction from
the whole to its parts, which is what a statement about every result that is ever held asks for.
-/
namespace AllParses

namespace Results

variable {α β : Type}

/-- The second set agrees with the first one up to where the first is cut. -/
inductive Approximates : Results α → Results α → Prop where
  | cut (s : Results α) : Approximates cut s
  | done : Approximates done done
  | item (a : α) {t u : Unit → Results α} (rest : Approximates (t ()) (u ())) :
    Approximates (item a t) (item a u)

namespace Approximates

theorem refl (r : Results α) : Approximates r r := by
  induction r with
  | done => exact .done
  | cut => exact .cut _
  | item a t ih => exact .item a (ih ())

/-- A finished set is not changed by a larger budget. -/
theorem eq_of_finished {r s : Results α} (below : Approximates r s) (finished : r.finished = true) :
    s = r := by
  induction below with
  | cut s => simp at finished
  | done => rfl
  | item a rest ih =>
    have tails := ih finished
    congr 1
    funext u
    exact tails

protected theorem map (f : α → β) {r s : Results α} (below : Approximates r s) :
    Approximates (r.map f) (s.map f) := by
  induction below with
  | cut s => exact .cut _
  | done => exact .done
  | item a rest ih => exact .item (f a) ih

protected theorem append {r s : Results α} {r' s' : Unit → Results α} (below : Approximates r s)
    (below' : Approximates (r' ()) (s' ())) : Approximates (r.append r') (s.append s') := by
  induction below with
  | cut s => exact .cut _
  | done => exact below'
  | item a rest ih => exact .item a ih

protected theorem flatMap {f g : α → Results β} {r s : Results α} (below : Approximates r s)
    (pointwise : ∀ a, Approximates (f a) (g a)) : Approximates (r.flatMap f) (s.flatMap g) := by
  induction below with
  | cut s => exact .cut _
  | done => exact .done
  | item a rest ih => exact (pointwise a).append ih

protected theorem filter (p : α → Bool) {r s : Results α} (below : Approximates r s) :
    Approximates (r.filter p) (s.filter p) := by
  induction below with
  | cut s => exact .cut _
  | done => exact .done
  | item a rest ih =>
    unfold filter
    split
    · exact .item a ih
    · exact ih

/-! What is known of a set is known of one that is cut later. -/

theorem head? {r s : Results α} {a : Option α} (below : Approximates r s)
    (known : r.head? = some a) : s.head? = some a := by
  cases below with
  | cut => cases known
  | done => exact known
  | item => exact known

theorem any? {r s : Results α} {p : α → Bool} {b : Bool} (below : Approximates r s)
    (known : r.any? p = some b) : s.any? p = some b := by
  induction below with
  | cut => cases known
  | done => exact known
  | item a rest ih =>
    unfold Results.any? at known ⊢
    split
    case isTrue holds => rwa [if_pos holds] at known
    case isFalse fails =>
      rw [if_neg fails] at known
      exact ih known

theorem toList? {r s : Results α} {as : List α} (below : Approximates r s)
    (known : r.toList? = some as) : s.toList? = some as := by
  have finished : r.finished = true := by
    by_contra cut
    simp [toList?_eq, cut] at known
  rw [below.eq_of_finished finished, known]

end Approximates

theorem mem_items_append {a : α} {r : Results α} {s : Unit → Results α}
    (member : a ∈ (r.append s).items) : a ∈ r.items ∨ a ∈ (s ()).items := by
  induction r with
  | done => exact .inr member
  | cut => simp [append] at member
  | item b t ih =>
    simp only [append, items_item, List.mem_cons] at member ⊢
    rcases member with same | later
    · exact .inl (.inl same)
    · rcases ih () later with first | second
      · exact .inl (.inr first)
      · exact .inr second

theorem mem_items_flatMap {b : β} {f : α → Results β} {r : Results α}
    (member : b ∈ (r.flatMap f).items) : ∃ a ∈ r.items, b ∈ (f a).items := by
  induction r with
  | done => simp [flatMap] at member
  | cut => simp [flatMap] at member
  | item a t ih =>
    rcases mem_items_append member with here | later
    · exact ⟨a, by simp, here⟩
    · obtain ⟨c, belongs, inside⟩ := ih () later
      exact ⟨c, by simp [belongs], inside⟩

@[simp] theorem mem_items_ofOption {a : α} {found : Option α} :
    a ∈ (ofOption found).items ↔ found = some a := by
  cases found with
  | none => simp [ofOption]
  | some b => simp [ofOption, eq_comm]

theorem flatMap_map {γ : Type} (f : α → β) (g : β → Results γ) (r : Results α) :
    (r.map f).flatMap g = r.flatMap fun a => g (f a) := by
  induction r with
  | done => rfl
  | cut => rfl
  | item a t ih =>
    simp only [map, flatMap]
    congr 1
    funext u
    exact ih u

/-- Only what is held is continued. -/
theorem flatMap_congr {f f' : α → Results β} {r : Results α}
    (same : ∀ a ∈ r.items, f a = f' a) : r.flatMap f = r.flatMap f' := by
  induction r with
  | done => rfl
  | cut => rfl
  | item a t ih =>
    have head : f a = f' a := same a List.mem_cons_self
    have tail := ih () fun b member => same b (List.mem_cons_of_mem a member)
    simp only [flatMap, head, tail]

theorem map_take (f : α → β) (n : Nat) (r : Unit → Results α) :
    (take n r).map f = take n fun u => (r u).map f := by
  induction n generalizing r with
  | zero => rfl
  | succ n ih =>
    unfold take
    dsimp only
    cases r () with
    | done => rfl
    | cut => rfl
    | item a t =>
      simp only [map]
      congr 1
      funext u
      exact ih t

theorem finished_take_of_finished (n : Nat) {r : Unit → Results α}
    (finished : (r ()).finished = true) : (take n r).finished = true := by
  induction n generalizing r with
  | zero => rfl
  | succ n ih =>
    unfold take
    split <;> rename_i shape
    · rfl
    · simp [shape] at finished
    · exact ih (by simpa [shape] using finished)

theorem toList?_eq_some_iff {r : Results α} {as : List α} :
    r.toList? = some as ↔ r.finished = true ∧ r.items = as := by
  rw [toList?_eq]
  cases r.finished <;> simp

/-- Asking for the first results of a set that is known to its end. -/
theorem toList?_take {r : Unit → Results α} {as : List α} (n : Nat)
    (all : (r ()).toList? = some as) : (take n r).toList? = some (as.take n) := by
  obtain ⟨finished, rfl⟩ := toList?_eq_some_iff.mp all
  exact toList?_eq_some_iff.mpr ⟨finished_take_of_finished n finished, items_take n r⟩

/-! ## Sets that are known to their end -/

theorem toList?_map (f : α → β) {r : Results α} {as : List α} (all : r.toList? = some as) :
    (r.map f).toList? = some (as.map f) := by
  obtain ⟨finished, rfl⟩ := toList?_eq_some_iff.mp all
  exact toList?_eq_some_iff.mpr ⟨by rwa [finished_map], items_map f r⟩

theorem toList?_append {r : Results α} {s : Unit → Results α} {as bs : List α}
    (first : r.toList? = some as) (second : (s ()).toList? = some bs) :
    (r.append s).toList? = some (as ++ bs) := by
  obtain ⟨done, rfl⟩ := toList?_eq_some_iff.mp first
  obtain ⟨done', rfl⟩ := toList?_eq_some_iff.mp second
  refine toList?_eq_some_iff.mpr ⟨?_, items_append_of_finished done s⟩
  rw [finished_append, done, done']
  rfl

theorem toList?_flatMap {r : Results α} {f : α → Results β} {as : List α} {g : α → List β}
    (all : r.toList? = some as) (each : ∀ a ∈ as, (f a).toList? = some (g a)) :
    (r.flatMap f).toList? = some (as.flatMap g) := by
  obtain ⟨finished, rfl⟩ := toList?_eq_some_iff.mp all
  have each_finished : ∀ a ∈ r.items, (f a).finished = true :=
    fun a member => (toList?_eq_some_iff.mp (each a member)).1
  refine toList?_eq_some_iff.mpr ⟨?_, ?_⟩
  · rw [finished_flatMap, finished, Bool.true_and, List.all_eq_true]
    exact each_finished
  · rw [items_flatMap_of_finished each_finished]
    exact List.flatMap_congr fun a member => (toList?_eq_some_iff.mp (each a member)).2

theorem toList?_filter (p : α → Bool) {r : Results α} {as : List α} (all : r.toList? = some as) :
    (r.filter p).toList? = some (as.filter p) := by
  obtain ⟨finished, rfl⟩ := toList?_eq_some_iff.mp all
  exact toList?_eq_some_iff.mpr ⟨by rwa [finished_filter], items_filter p r⟩

theorem any?_of_toList? (p : α → Bool) {r : Results α} {as : List α} (all : r.toList? = some as) :
    r.any? p = some (as.any p) := by
  induction r generalizing as with
  | done =>
    obtain rfl := Option.some.inj all
    rfl
  | cut => cases all
  | item a t ih =>
    obtain ⟨bs, rest, rfl⟩ := Option.map_eq_some_iff.mp all
    rw [any?, ih () rest, List.any_cons]
    cases p a <;> rfl

theorem head?_of_toList? {r : Results α} {as : List α} (all : r.toList? = some as) :
    r.head? = some as.head? := by
  cases r with
  | done =>
    obtain rfl := Option.some.inj all
    rfl
  | cut => cases all
  | item a t =>
    obtain ⟨bs, rest, rfl⟩ := Option.map_eq_some_iff.mp all
    rfl

theorem toList?_eq_nil_iff {r : Results α} : r.toList? = some [] ↔ r.head? = some none := by
  cases r <;> simp [toList?, head?]

theorem head?_eq_some_iff {r : Results α} {a : α} :
    r.head? = some (some a) ↔ ∃ tail, r = item a tail := by
  cases r <;> simp [head?, eq_comm]

/-- What comes first in a composed set is first in its first part, if that has anything. -/
theorem head?_append (r : Results α) (s : Unit → Results α) :
    (r.append s).head? = r.head?.bind fun first => first.elim (s ()).head? fun a => some (some a) := by
  cases r <;> rfl

theorem head?_map (f : α → β) (r : Results α) : (r.map f).head? = r.head?.map (Option.map f) := by
  cases r <;> rfl

/-- Where every result is continued, the first continuation of the first one comes first. -/
theorem head?_flatMap {f : α → Results β} (continued : ∀ a, (f a).head? ≠ some none)
    (r : Results α) : (r.flatMap f).head? =
      r.head?.bind fun first => first.elim (some none) fun a => (f a).head? := by
  cases r with
  | done => rfl
  | cut => rfl
  | item a t =>
    rw [flatMap, head?_append]
    cases first : (f a).head? with
    | none => exact first.symm
    | some found =>
      cases found with
      | none => exact absurd first (continued a)
      | some b => exact first.symm

/-- Behind the first result nothing has an influence on the set of the first result. -/
theorem take_one (r : Unit → Results α) : take 1 r = (r ()).head?.elim cut ofOption := by
  unfold take
  cases r () <;> rfl

theorem toList?_take_one (r : Unit → Results α) :
    (take 1 r).toList? = (r ()).head?.map Option.toList := by
  rw [take_one]
  cases r () <;> rfl

theorem toList?_ofOption (found : Option α) : (ofOption found).toList? = some found.toList := by
  cases found <;> rfl

end Results

namespace Parser

variable {σ α β : Type}

/-- A choice of several parsers, read from the left: the first one, or else the remaining ones. -/
theorem anyOf_cons (p : Parser σ α) (ps : List (Parser σ α)) :
    anyOf (p :: ps) = p.either (anyOf ps) := by
  have from_any : ∀ (qs : List (Parser σ α)) (q : Parser σ α),
      qs.foldl either q = q.either (anyOf qs) := by
    intro qs
    induction qs with
    | nil => intro q; exact (either_fail q).symm
    | cons r rs ih =>
      intro q
      rw [List.foldl_cons, ih, either_assoc]
      congr 1
      exact (ih r).symm
  exact from_any ps p

theorem map_either (f : α → β) (p q : Parser σ α) :
    (p.either q).map f = (p.map f).either (q.map f) := by
  simp only [either, map, Results.map_append]

theorem map_anyOf (f : α → β) (ps : List (Parser σ α)) :
    (anyOf ps).map f = anyOf (ps.map (·.map f)) := by
  induction ps with
  | nil => rfl
  | cons p ps ih => rw [List.map_cons, anyOf_cons, anyOf_cons, map_either, ih]

/-- A parser that is known to have a result needs no alternative. -/
theorem run_orElse {p : Parser σ α} {budget : Nat} {x : Input σ}
    (found : 0 < (p.run budget x).items.length) (q : Parser σ α) :
    (p.orElse q).run budget x = p.run budget x := by
  unfold orElse
  dsimp only
  cases shape : p.run budget x with
  | done => simp [shape] at found
  | cut => simp [shape] at found
  | item r tail => rfl

/-- Where all results are known the call has come back, and the first of them are known as well. -/
theorem toList?_run_limit (n : Nat) {p : Parser σ α} {budget : Nat} {x : Input σ}
    {rs : List (α × Input σ)} (all : (p.run budget x).toList? = some rs) :
    ((p.limit n).run budget x).toList? = some (rs.take n) := by
  have started : p.starts budget x = true := by
    refine starts_of_ne_cut fun stuck => ?_
    rw [stuck] at all
    cases all
  rw [run_limit_of_starts started]
  exact Results.toList?_take n all

theorem mem_items_map {f : α → β} {p : Parser σ α} {budget : Nat} {x rest : Input σ} {w : β} :
    (w, rest) ∈ ((p.map f).run budget x).items ↔
      ∃ v, (v, rest) ∈ (p.run budget x).items ∧ f v = w := by
  rw [run_map, Results.items_map, List.mem_map]
  constructor
  · rintro ⟨⟨v, rest'⟩, member, same⟩
    obtain ⟨rfl, rfl⟩ := Prod.mk.inj same
    exact ⟨v, member, rfl⟩
  · rintro ⟨v, member, rfl⟩
    exact ⟨(v, rest), member, rfl⟩

theorem finished_anyOf (ps : List (Parser σ α)) (budget : Nat) (x : Input σ) :
    ((anyOf ps).run budget x).finished = true ↔ ∀ p ∈ ps, (p.run budget x).finished = true := by
  induction ps with
  | nil => simp [anyOf]
  | cons p ps ih => simp [anyOf_cons, ih]

theorem mem_items_anyOf {ps : List (Parser σ α)} {budget : Nat} {x : Input σ} {r : α × Input σ}
    (member : r ∈ ((anyOf ps).run budget x).items) : ∃ p ∈ ps, r ∈ (p.run budget x).items := by
  induction ps with
  | nil => simp [anyOf] at member
  | cons p ps ih =>
    rw [anyOf_cons] at member
    rcases Results.mem_items_append member with here | later
    · exact ⟨p, by simp, here⟩
    · obtain ⟨q, belongs, inside⟩ := ih later
      exact ⟨q, by simp [belongs], inside⟩

/-- The results of a finished choice are those of its parsers, one parser after the other. -/
theorem items_anyOf {ps : List (Parser σ α)} {budget : Nat} {x : Input σ}
    (finished : ((anyOf ps).run budget x).finished = true) :
    ((anyOf ps).run budget x).items = ps.flatMap fun p => (p.run budget x).items := by
  induction ps with
  | nil => rfl
  | cons p ps ih =>
    rw [anyOf_cons] at finished ⊢
    simp only [run_either, Results.finished_append, Bool.and_eq_true] at finished
    rw [run_either, Results.items_append_of_finished finished.1, ih finished.2, List.flatMap_cons]

end Parser

end AllParses
