import AllParses.Grammar.Notation
import AllParses.Proofs.Recognizer

/-!
# Reading alternatives

The reader of grammars tries every shorter run of symbols and of alternatives as well. A `Sharp`
lexicon has at most one name at any place and never mistakes a mark of the notation for one. Where a
run of symbols or alternatives is broken off too early the text then `GoesOn`, with a name or with
`|`. So the first result of the reader of alternatives takes them as far as they go, and behind every
other result the text goes on (`alternativesReader_settles`).
-/
namespace AllParses

namespace Lexicon

open Grammar (Symbol Alternative Rule)

variable {l : Lexicon}

/-- At every place behind layout, each recognizer has at most one result, which consumes something;
at most one of them has one, and none has where `|` or `.` stands. -/
structure Sharp (l : Lexicon) : Prop where
  nonterminal : ∀ x : Input Char, x.skipLayout = x → l.nonterminal.SharpAt x
  terminal : ∀ x : Input Char, x.skipLayout = x → l.terminal.SharpAt x
  exclusive : ∀ x : Input Char, x.skipLayout = x →
    l.nonterminal.Settles x [] ∨ l.terminal.Settles x []
  marks : ∀ x : Input Char, x.skipLayout = x → x.head? = some '|' ∨ x.head? = some '.' →
    l.nonterminal.Settles x [] ∧ l.terminal.Settles x []

/-! ## Symbols -/

theorem symbolReader_settles {x : Input Char} {terminals nonterminals : List (String × Input Char)}
    (terminal : l.terminal.Settles x.skipLayout terminals)
    (nonterminal : l.nonterminal.Settles x.skipLayout nonterminals) :
    l.symbolReader.Settles x
      ((terminals.map fun r => (.terminal r.1, r.2)) ++
        nonterminals.map fun r => (.nonterminal r.1, r.2)) :=
  (terminal.afterLayout.map _).either (nonterminal.afterLayout.map _)

namespace Sharp

variable {x : Input Char}

theorem symbolReader (sharp : l.Sharp) (x : Input Char) : l.symbolReader.SharpAt x := by
  have trimmed := Input.skipLayout_idem x
  rcases sharp.exclusive _ trimmed with refused | refused
  · rcases sharp.terminal _ trimmed with refused' | ⟨name, rest, read, proper⟩
    · exact .inl (symbolReader_settles refused' refused)
    · exact .inr ⟨.terminal name, rest, symbolReader_settles read refused, proper.of_skipLayout⟩
  · rcases sharp.nonterminal _ trimmed with refused' | ⟨name, rest, read, proper⟩
    · exact .inl (symbolReader_settles refused refused')
    · exact .inr ⟨.nonterminal name, rest, symbolReader_settles refused read, proper.of_skipLayout⟩

theorem symbolReader_refuses (sharp : l.Sharp)
    (mark : x.skipLayout.head? = some '|' ∨ x.skipLayout.head? = some '.') :
    l.symbolReader.Settles x [] := by
  have refused := sharp.marks _ (Input.skipLayout_idem x) mark
  exact symbolReader_settles refused.2 refused.1

end Sharp

/-- A name follows. -/
def NameFollows (l : Lexicon) (x : Input Char) : Prop :=
  ∃ s rest, l.symbolReader.Settles x [(s, rest)]

/-- A name or a `|` follows, so no rule ends here. -/
def GoesOn (l : Lexicon) (x : Input Char) : Prop :=
  l.NameFollows x ∨ x.skipLayout.head? = some '|'

theorem NameFollows.not_mark (sharp : l.Sharp) {x : Input Char} (name : l.NameFollows x) :
    ¬ (x.skipLayout.head? = some '|' ∨ x.skipLayout.head? = some '.') := by
  intro mark
  obtain ⟨s, rest, read⟩ := name
  simpa using read.unique (sharp.symbolReader_refuses mark)

theorem GoesOn.not_dot (sharp : l.Sharp) {x : Input Char} (goes_on : l.GoesOn x) :
    x.skipLayout.head? ≠ some '.' := by
  intro dot
  rcases goes_on with name | bar
  · exact name.not_mark sharp (.inr dot)
  · rw [bar] at dot
    cases dot

/-! ## Alternatives -/

/-- The first result is `(v, rest)`, and the condition holds behind every other one. -/
def LeadsTo {α : Type} (others : Input Char → Prop) (rs : List (α × Input Char)) (v : α)
    (rest : Input Char) : Prop :=
  ∃ partials, rs = (v, rest) :: partials ∧ ∀ r ∈ partials, others r.2

theorem LeadsTo.append {α : Type} {others : Input Char → Prop} {rs ss : List (α × Input Char)}
    {v : α} {rest : Input Char} (first : LeadsTo others rs v rest) (more : ∀ s ∈ ss, others s.2) :
    LeadsTo others (rs ++ ss) v rest := by
  obtain ⟨partials, rfl, condition⟩ := first
  refine ⟨partials ++ ss, rfl, fun r member => ?_⟩
  rcases List.mem_append.mp member with early | late
  · exact condition r early
  · exact more r late

/-- When every result is continued, the first one is the first one continued. -/
theorem LeadsTo.flatMap {α β γ : Type} {others others' : Input Char → Prop}
    {rs : List (α × Input Char)} {v : α} {mid : Input Char} {w : β} {rest : Input Char}
    {next : α × Input Char → List (β × Input Char)} (pair : α → β → γ)
    (first : LeadsTo others rs v mid) (second : LeadsTo others' (next (v, mid)) w rest)
    (dead : ∀ r ∈ rs, others r.2 → ∀ s ∈ next r, others' s.2) :
    LeadsTo others' (rs.flatMap fun r => (next r).map fun s => (pair r.1 s.1, s.2))
      (pair v w) rest := by
  obtain ⟨partials, rfl, condition⟩ := first
  obtain ⟨partials', whole, condition'⟩ := second
  rw [List.flatMap_cons]
  refine LeadsTo.append ⟨partials'.map fun s => (pair v s.1, s.2), by rw [whole]; rfl, ?_⟩ ?_
  · intro r member
    obtain ⟨s, among, rfl⟩ := List.mem_map.mp member
    exact condition' s among
  · intro r member
    obtain ⟨t, among, inside⟩ := List.mem_flatMap.mp member
    obtain ⟨s, among', rfl⟩ := List.mem_map.mp inside
    exact dead t (List.mem_cons_of_mem _ among) (condition t among) s among'

/-- What reads one more alternative. -/
def furtherReader (l : Lexicon) : Parser Char Alternative :=
  (Parser.symbol '|').afterLayout.skipThen l.alternativeReader

/-- From `x` on all further alternatives are read, and behind them no `|` follows. -/
inductive FurtherAt (l : Lexicon) : Input Char → List Alternative → Input Char → Prop where
  | last {x : Input Char} (no_bar : x.skipLayout.head? ≠ some '|') : FurtherAt l x [] x
  | more {x mid stop rest : Input Char} {steps : List (Symbol × Input Char)}
    {alternatives : List Alternative} (bar : x.skipLayout.symbols = '|' :: mid.symbols)
    (symbols : l.symbolReader.Iterates mid steps stop)
    (later : FurtherAt l stop alternatives rest) :
    FurtherAt l x (steps.map Prod.fst :: alternatives) rest

/-- An alternative that is broken off too early has a name behind it. -/
theorem alternativeReader_settles {x rest : Input Char} {steps : List (Symbol × Input Char)}
    (symbols : l.symbolReader.Iterates x steps rest) :
    ∃ rs, l.alternativeReader.Settles x rs ∧
      LeadsTo l.NameFollows rs (steps.map Prod.fst) rest ∧
      ∀ r ∈ rs, r.2.symbols <:+ x.symbols :=
  ⟨_, symbols.settlesMany.settles, symbols.beginnings_eq, symbols.suffix_of_mem⟩

theorem furtherReader_settles {x mid : Input Char} {rs : List (Alternative × Input Char)}
    (bar : x.skipLayout.symbols = '|' :: mid.symbols)
    (alternative : l.alternativeReader.Settles mid rs) :
    l.furtherReader.Settles x rs :=
  (Parser.symbol_settles bar).afterLayout.skipThen_single alternative

theorem furtherReader_refuses {x : Input Char} (no_bar : x.skipLayout.head? ≠ some '|') :
    l.furtherReader.Settles x [] :=
  (Parser.symbol_refuses no_bar).afterLayout.skipThen_nil

theorem furtherReader_settlesMany_nil {x : Input Char} (no_bar : x.skipLayout.head? ≠ some '|') :
    l.furtherReader.SettlesMany x [([], x)] :=
  (furtherReader_refuses no_bar).many_nil

/-- Further alternatives follow the complete run of symbols only: where it is broken off there is a
name and no `|`. -/
theorem exists_further (sharp : l.Sharp) {alternative : Alternative} {stop : Input Char}
    {rs : List (Alternative × Input Char)} {runs : List (List Alternative × Input Char)}
    (leads : LeadsTo l.NameFollows rs alternative stop) (refused : l.symbolReader.Settles stop [])
    (further : l.furtherReader.SettlesMany stop runs) :
    ∃ next : Alternative × Input Char → List (List Alternative × Input Char),
      (∀ r ∈ rs, l.furtherReader.SettlesMany r.2 (next r)) ∧ next (alternative, stop) = runs ∧
        ∀ r, l.NameFollows r.2 → next r = [([], r.2)] := by
  have stays : ∀ r : Alternative × Input Char, l.NameFollows r.2 → r.2 ≠ stop := by
    rintro r ⟨s, rest, read⟩ same
    rw [same] at read
    simpa using read.unique refused
  -- No run that is broken off stops where the complete one does, since a name follows it.
  refine ⟨fun r => if r.2 = stop then runs else [([], r.2)], ?_, if_pos rfl, ?_⟩
  · obtain ⟨partials, rfl, names⟩ := leads
    intro r member
    rcases List.mem_cons.mp member with rfl | among
    · simpa using further
    · have name := names r among
      simp only [if_neg (stays r name)]
      exact furtherReader_settlesMany_nil fun bar => name.not_mark sharp (.inl bar)
  · intro r name
    exact if_neg (stays r name)

/-- All further alternatives are the first result, and behind every other one the text goes on. -/
theorem furtherReader_settlesMany (sharp : l.Sharp) {x rest : Input Char}
    {alternatives : List Alternative} (further : l.FurtherAt x alternatives rest) :
    ∃ runs, l.furtherReader.SettlesMany x runs ∧ LeadsTo l.GoesOn runs alternatives rest := by
  -- Induction on the alternatives: each adds the runs that break off within it, at a name, and the
  -- run that stops in front of it, at its `|`.
  induction further with
  | last no_bar => exact ⟨_, furtherReader_settlesMany_nil no_bar, [], rfl, by simp⟩
  | @more x mid stop rest steps alternatives bar symbols later ih =>
    obtain ⟨runs, later_runs, leads⟩ := ih
    obtain ⟨rs, read, leads', suffixes⟩ := alternativeReader_settles symbols
    obtain ⟨next, each, at_stop, at_name⟩ :=
      exists_further sharp leads' symbols.refuses later_runs
    have after_bar : mid.ProperSuffix x := (Input.ProperSuffix.of_cons bar).of_skipLayout
    have shorter := fun r member => Input.ProperSuffix.of_suffix (suffixes r member) after_bar
    refine ⟨_, (furtherReader_settles bar read).many next fun r member =>
      ⟨shorter r member, each r member⟩, ?_⟩
    · refine LeadsTo.append (leads'.flatMap _ (at_stop ▸ leads) ?_) ?_
      · intro r _ name s member
        rw [at_name r name, List.mem_singleton] at member
        rw [member]
        exact .inl name
      · intro s member
        rw [List.mem_singleton.mp member]
        exact .inr (Input.head?_eq_some_iff.mpr ⟨mid, bar⟩)

theorem alternativesReader_settles (sharp : l.Sharp) {x stop rest : Input Char}
    {steps : List (Symbol × Input Char)} {alternatives : List Alternative}
    (symbols : l.symbolReader.Iterates x steps stop)
    (further : l.FurtherAt stop alternatives rest) :
    ∃ rs, l.alternativesReader.Settles x rs ∧
      LeadsTo l.GoesOn rs (steps.map Prod.fst :: alternatives) rest := by
  obtain ⟨runs, later_runs, leads⟩ := furtherReader_settlesMany sharp further
  obtain ⟨firsts, read, leads', -⟩ := alternativeReader_settles symbols
  obtain ⟨next, each, at_stop, at_name⟩ := exists_further sharp leads' symbols.refuses later_runs
  have whole : LeadsTo l.GoesOn
      (firsts.flatMap fun r => (next r).map fun s => (r.1 :: s.1, s.2))
      (steps.map Prod.fst :: alternatives) rest := by
    refine leads'.flatMap _ (at_stop ▸ leads) ?_
    intro r _ name s member
    rw [at_name r name, List.mem_singleton] at member
    rw [member]
    exact .inl name
  have both := (read.andThen next fun r member => (each r member).settles).map fun r => r.1 :: r.2
  simp only [List.map_flatMap, List.map_map, Function.comp_def] at both
  obtain ⟨partials, same, go_on⟩ := whole
  rw [same] at both
  exact ⟨_, both.orElse, partials, rfl, go_on⟩

theorem exists_furtherAt (sharp : l.Sharp) (x : Input Char) :
    ∃ alternatives rest, l.FurtherAt x alternatives rest := by
  induction size : x.size using Nat.strongRecOn generalizing x with
  | _ n ih =>
    by_cases bar : x.skipLayout.head? = some '|'
    · obtain ⟨mid, bar⟩ := Input.head?_eq_some_iff.mp bar
      obtain ⟨steps, stop, symbols⟩ := Parser.exists_iterates sharp.symbolReader mid
      have shorter := Input.ProperSuffix.of_suffix symbols.suffix (.of_cons bar)
      obtain ⟨alternatives, rest, later⟩ :=
        ih stop.size (size ▸ shorter.of_skipLayout.shorter) stop rfl
      exact ⟨_, rest, .more bar symbols later⟩
    · exact ⟨[], x, .last bar⟩

theorem FurtherAt.suffix {x rest : Input Char} {alternatives : List Alternative}
    (further : l.FurtherAt x alternatives rest) : rest.symbols <:+ x.symbols := by
  induction further with
  | last => exact List.suffix_rfl
  | more bar symbols later ih =>
    have shorter := Input.ProperSuffix.of_suffix symbols.suffix (.of_cons bar)
    exact ih.trans shorter.of_skipLayout.suffix

end Lexicon

end AllParses
