/-!
# Result sets

A parse may succeed in several ways.  `Results` lists them in order and produces each one only
when it is asked for, so the first results of an endless set are available.  A set ends in one of
two ways: `done` says that nothing more follows, `cut` that the step budget was spent before it
was known what follows.

Everything about a result set is stated on two views: `items`, the results that it holds, and
`finished`, whether it ends in `done`.
-/

namespace AllParses

/-- An ordered collection of results, produced on demand. -/
inductive Results (α : Type) where
  /-- Nothing more follows. -/
  | done
  /-- The budget is spent; what follows is not known. -/
  | cut
  /-- One more result; what follows it is computed when `tail` is called. -/
  | item (head : α) (tail : Unit → Results α)

namespace Results

variable {α β γ : Type}

instance : Inhabited (Results α) := ⟨done⟩

/-- Exactly one result. -/
def single (a : α) : Results α :=
  item a fun _ => done

/-- At most one result. -/
def ofOption : Option α → Results α
  | none => done
  | some a => single a

/-- The given results in the given order. -/
def ofList : List α → Results α
  | [] => done
  | a :: as => item a fun _ => ofList as

/-- The results that are held, up to the end or the cut. -/
def items : Results α → List α
  | done => []
  | cut => []
  | item a t => a :: (t ()).items

/-- Whether the set ends without being cut. -/
def finished : Results α → Bool
  | done => true
  | cut => false
  | item _ t => (t ()).finished

/-- All results, or `none` when the set is cut. -/
def toList? : Results α → Option (List α)
  | done => some []
  | cut => none
  | item a t => (t ()).toList?.map (a :: ·)

/-- The first result, if there is one; the outer `none` says that the budget was spent before
this was known. -/
def head? : Results α → Option (Option α)
  | done => some none
  | cut => none
  | item a _ => some (some a)

/-- Applies `f` to every result. -/
def map (f : α → β) : Results α → Results β
  | done => done
  | cut => cut
  | item a t => item (f a) fun _ => (t ()).map f

/-- The results of the first set, then those of the second.  The second is not started before the
first is exhausted, and not at all when the first is cut. -/
def append : Results α → (Unit → Results α) → Results α
  | done, s => s ()
  | cut, _ => cut
  | item a t, s => item a fun _ => (t ()).append s

/-- Replaces every result by the results that `f` gives for it, in order. -/
def flatMap (f : α → Results β) : Results α → Results β
  | done => done
  | cut => cut
  | item a t => (f a).append fun _ => (t ()).flatMap f

/-- The results that satisfy `p`. -/
def filter (p : α → Bool) : Results α → Results α
  | done => done
  | cut => cut
  | item a t => if p a then item a fun _ => (t ()).filter p else (t ()).filter p

/-- The first `n` results.  Nothing behind the `n`-th one is ever computed. -/
def take : Nat → (Unit → Results α) → Results α
  | 0, _ => done
  | n + 1, r =>
    match r () with
    | done => done
    | cut => cut
    | item a t => item a fun _ => take n t

/-- Whether some result satisfies `p`; none behind the first such result is computed. -/
def any? (p : α → Bool) : Results α → Option Bool
  | done => some false
  | cut => none
  | item a t => if p a then some true else (t ()).any? p

/-! ## Equations -/

@[simp] theorem items_done : (done : Results α).items = [] := rfl
@[simp] theorem items_cut : (cut : Results α).items = [] := rfl
@[simp] theorem items_item (a : α) (t : Unit → Results α) :
    (item a t).items = a :: (t ()).items := rfl
@[simp] theorem items_single (a : α) : (single a).items = [a] := rfl

@[simp] theorem finished_done : (done : Results α).finished = true := rfl
@[simp] theorem finished_cut : (cut : Results α).finished = false := rfl
@[simp] theorem finished_item (a : α) (t : Unit → Results α) :
    (item a t).finished = (t ()).finished := rfl
@[simp] theorem finished_single (a : α) : (single a).finished = true := rfl

@[simp] theorem items_ofList (as : List α) : (ofList as).items = as := by
  induction as with
  | nil => rfl
  | cons a as ih => simp [ofList, ih]

@[simp] theorem finished_ofList (as : List α) : (ofList as).finished = true := by
  induction as with
  | nil => rfl
  | cons a as ih => simp [ofList, ih]

theorem toList?_eq (r : Results α) :
    r.toList? = if r.finished then some r.items else none := by
  induction r with
  | done => rfl
  | cut => rfl
  | item a t ih =>
    by_cases h : (t ()).finished = true <;> simp [toList?, ih (), h]

@[simp] theorem items_map (f : α → β) (r : Results α) : (r.map f).items = r.items.map f := by
  induction r with
  | done => rfl
  | cut => rfl
  | item a t ih => simp [map, ih]

@[simp] theorem finished_map (f : α → β) (r : Results α) :
    (r.map f).finished = r.finished := by
  induction r with
  | done => rfl
  | cut => rfl
  | item a t ih => simp [map, ih]

@[simp] theorem finished_append (r : Results α) (s : Unit → Results α) :
    (r.append s).finished = (r.finished && (s ()).finished) := by
  induction r with
  | done => simp [append]
  | cut => rfl
  | item a t ih => simp [append, ih]

theorem items_append_of_finished {r : Results α} (h : r.finished = true)
    (s : Unit → Results α) : (r.append s).items = r.items ++ (s ()).items := by
  induction r with
  | done => rfl
  | cut => simp at h
  | item a t ih => simp [append, ih () h]

@[simp] theorem finished_flatMap (f : α → Results β) (r : Results α) :
    (r.flatMap f).finished = (r.finished && r.items.all fun a => (f a).finished) := by
  induction r with
  | done => rfl
  | cut => rfl
  | item a t ih =>
    simp only [flatMap, finished_append, ih, finished_item, items_item, List.all_cons]
    cases (f a).finished <;> simp

theorem items_flatMap_of_finished {f : α → Results β} {r : Results α}
    (h : ∀ a ∈ r.items, (f a).finished = true) :
    (r.flatMap f).items = r.items.flatMap fun a => (f a).items := by
  induction r with
  | done => rfl
  | cut => rfl
  | item a t ih =>
    simp only [items_item, List.mem_cons, forall_eq_or_imp] at h
    simp [flatMap, items_append_of_finished h.1, ih () h.2]

@[simp] theorem items_filter (p : α → Bool) (r : Results α) :
    (r.filter p).items = r.items.filter p := by
  induction r with
  | done => rfl
  | cut => rfl
  | item a t ih =>
    simp only [filter, items_item, List.filter_cons]
    split <;> simp [ih]

@[simp] theorem finished_filter (p : α → Bool) (r : Results α) :
    (r.filter p).finished = r.finished := by
  induction r with
  | done => rfl
  | cut => rfl
  | item a t ih =>
    simp only [filter, finished_item]
    split <;> simp [ih]

@[simp] theorem items_take (n : Nat) (r : Unit → Results α) :
    (take n r).items = (r ()).items.take n := by
  induction n generalizing r with
  | zero => rfl
  | succ n ih =>
    unfold take
    split <;> rename_i h <;> simp [h, ih]

@[simp] theorem append_done (r : Results α) : (r.append fun _ => done) = r := by
  induction r with
  | done => rfl
  | cut => rfl
  | item a t ih =>
    simp only [append]
    congr 1
    funext u
    exact ih u

theorem append_assoc (r : Results α) (s t : Unit → Results α) :
    (r.append s).append t = r.append fun _ => (s ()).append t := by
  induction r with
  | done => rfl
  | cut => rfl
  | item a u ih =>
    simp only [append]
    congr 1
    funext v
    exact ih v

theorem map_append (f : α → β) (r : Results α) (s : Unit → Results α) :
    (r.append s).map f = (r.map f).append fun _ => (s ()).map f := by
  induction r with
  | done => rfl
  | cut => rfl
  | item a t ih =>
    simp only [append, map]
    congr 1
    funext u
    exact ih u

theorem map_map (g : β → γ) (f : α → β) (r : Results α) :
    (r.map f).map g = r.map fun a => g (f a) := by
  induction r with
  | done => rfl
  | cut => rfl
  | item a t ih =>
    simp only [map]
    congr 1
    funext u
    exact ih u

theorem flatMap_append (f : α → Results β) (r : Results α) (s : Unit → Results α) :
    (r.append s).flatMap f = (r.flatMap f).append fun _ => (s ()).flatMap f := by
  induction r with
  | done => rfl
  | cut => rfl
  | item a t ih =>
    simp only [append, flatMap, append_assoc]
    congr 1
    funext u
    exact ih u

theorem flatMap_flatMap (g : β → Results γ) (f : α → Results β) (r : Results α) :
    (r.flatMap f).flatMap g = r.flatMap fun a => (f a).flatMap g := by
  induction r with
  | done => rfl
  | cut => rfl
  | item a t ih =>
    simp only [flatMap, flatMap_append]
    congr 1
    funext u
    exact ih u

theorem map_flatMap (g : β → γ) (f : α → Results β) (r : Results α) :
    (r.flatMap f).map g = r.flatMap fun a => (f a).map g := by
  induction r with
  | done => rfl
  | cut => rfl
  | item a t ih =>
    simp only [flatMap, map_append]
    congr 1
    funext u
    exact ih u

end Results

end AllParses
