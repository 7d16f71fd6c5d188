import AllParses.Parser.Query
import AllParses.Proofs.Grammar.Budget
import AllParses.Proofs.Grammar.Enumeration
import Mathlib.Data.List.Perm.Subperm
import Mathlib.Logic.Relation

/-!
# Grammars whose expansions end

Expanding a nonterminal may expand others before anything is consumed: those that stand in one of
its alternatives behind symbols that can derive nothing. A grammar is `Progressive` when no chain
of such left corners comes back to where it started and no terminal is spelt by nothing.

* Nonterminals that are expanded one within the other at the same place of the input are all
  different, so there are no more of them than rules, and the input can only get shorter. Hence a
  depth of `expansionBound` suffices for any symbol (`finished_derivationParser`).
* A larger budget only carries a result set on from where it was cut, so from that bound on nothing
  changes any more.
-/
namespace AllParses.Grammar

/-- The symbol can derive the empty list of leaves. -/
def Nullable (g : Grammar) (s : Symbol) : Prop :=
  ∃ t : ParseTree, t.label = s ∧ t.Conforms g ∧ t.leaves = []

/-- An alternative of `outer` has `inner` behind symbols that can all derive nothing, so expanding
`outer` may expand `inner` on the same input. -/
def LeftCorner (g : Grammar) (outer inner : String) : Prop :=
  ∃ alternatives before after, g.alternatives? outer = some alternatives ∧
    before ++ .nonterminal inner :: after ∈ alternatives ∧ ∀ s ∈ before, g.Nullable s

/-- The terminal stands in some alternative. -/
def HasTerminal (g : Grammar) (lexeme : String) : Prop :=
  ∃ name alternatives symbols, g.alternatives? name = some alternatives ∧
    symbols ∈ alternatives ∧ .terminal lexeme ∈ symbols

/-- No nonterminal comes back to itself before something is consumed: neither by left recursion,
directly, through others or behind nullable symbols, nor by terminals that are spelt by no
symbol. -/
structure Progressive (σ : Type) [Alphabet σ] (g : Grammar) : Prop where
  acyclic : ∀ name, ¬ Relation.TransGen g.LeftCorner name name
  spelt : ∀ lexeme, g.HasTerminal lexeme → (Alphabet.spell lexeme : List σ) ≠ []

theorem not_nullable_terminal (g : Grammar) (name : String) : ¬ g.Nullable (.terminal name) := by
  rintro ⟨t, label, conforms, silent⟩
  cases conforms with
  | terminal other => simp [ParseTree.leaves] at silent
  | nonterminal rule chosen each => cases label

/-- The nonterminals before the first terminal: all that can be left corners. -/
def leading (symbols : Alternative) : List String :=
  (symbols.takeWhile fun s => !s.isTerminal).map Symbol.name

theorem mem_leading_of_nullable {g : Grammar} {before after : Alternative} {inner : String}
    (nullable : ∀ s ∈ before, g.Nullable s) :
    inner ∈ leading (before ++ .nonterminal inner :: after) := by
  have passed : ∀ s ∈ before, (!s.isTerminal) = true := by
    intro s member
    cases s with
    | terminal name => exact absurd (nullable _ member) (not_nullable_terminal g name)
    | nonterminal name => rfl
  rw [leading, List.takeWhile_append_of_pos passed, List.map_append]
  exact List.mem_append_right _ List.mem_cons_self

/-- A grammar is progressive if a rank of its nonterminals decreases from each of them to those that
lead its alternatives. -/
theorem Progressive.of_rank {σ : Type} [Alphabet σ] {g : Grammar} (rank : String → Nat)
    (rules : ∀ name alternatives, g.alternatives? name = some alternatives →
      ∀ symbols ∈ alternatives, (∀ inner ∈ leading symbols, rank inner < rank name) ∧
        ∀ lexeme, .terminal lexeme ∈ symbols → (Alphabet.spell lexeme : List σ) ≠ []) :
    g.Progressive σ := by
  have corner : ∀ outer inner, g.LeftCorner outer inner → rank inner < rank outer := by
    rintro outer inner ⟨alternatives, before, after, rule, among, nullable⟩
    exact (rules outer alternatives rule _ among).1 inner (mem_leading_of_nullable nullable)
  constructor
  · intro name cycle
    have descends : ∀ inner, Relation.TransGen g.LeftCorner name inner → rank inner < rank name := by
      intro inner chain
      induction chain with
      | single last => exact corner _ _ last
      | tail _ last ih => exact (corner _ _ last).trans ih
    exact Nat.lt_irrefl _ (descends name cycle)
  · rintro lexeme ⟨name, alternatives, symbols, rule, among, member⟩
    exact (rules name alternatives rule symbols among).2 lexeme member

/-- On tokens only the left corners matter. -/
theorem progressive_tokens_iff {g : Grammar} :
    g.Progressive String ↔ ∀ name, ¬ Relation.TransGen g.LeftCorner name name := by
  constructor
  · exact fun progressive => progressive.acyclic
  · exact fun acyclic => ⟨acyclic, fun lexeme _ => List.cons_ne_nil lexeme []⟩

/-- On text the terminals must have names as well. -/
theorem progressive_text_iff {g : Grammar} :
    g.Progressive Char ↔ (∀ name, ¬ Relation.TransGen g.LeftCorner name name) ∧
      ∀ lexeme, g.HasTerminal lexeme → lexeme ≠ "" := by
  have spelt_iff : ∀ lexeme : String, (Alphabet.spell lexeme : List Char) ≠ [] ↔ lexeme ≠ "" := by
    intro lexeme
    exact not_congr String.toList_eq_nil_iff
  constructor
  · rintro ⟨acyclic, spelt⟩
    exact ⟨acyclic, fun lexeme terminal => (spelt_iff lexeme).mp (spelt lexeme terminal)⟩
  · rintro ⟨acyclic, named⟩
    exact ⟨acyclic, fun lexeme terminal => (spelt_iff lexeme).mpr (named lexeme terminal)⟩

/-- The budget under which the symbols of a progressive grammar finish on an input: for each symbol
of the input and for its end, one step for every rule and one for a nonterminal without a rule. -/
def expansionBound {σ : Type} (g : Grammar) (x : Input σ) : Nat :=
  (x.size + 1) * (g.alternativesOf.size + 1)

/-- The nonterminals `seen` are expanded one within the other, and `name` within them all, at the
same place of the input. -/
structure Nested (g : Grammar) (seen : List String) (name : String) : Prop where
  nodup : seen.Nodup
  ruled : ∀ outer ∈ seen, g.contains outer = true
  reach : ∀ outer ∈ seen, Relation.TransGen g.LeftCorner outer name

namespace Nested

variable {g : Grammar} {seen : List String} {name inner : String}

theorem nil (g : Grammar) (name : String) : g.Nested [] name :=
  ⟨List.nodup_nil, by simp, by simp⟩

/-- They are all different, so there are no more of them than rules. -/
theorem length_le (nested : g.Nested seen name) : seen.length ≤ g.alternativesOf.size := by
  have keys : seen ⊆ g.alternativesOf.keys := by
    intro outer member
    have found := nested.ruled outer member
    simpa [contains, alternatives?] using found
  have length := (nested.nodup.subperm keys).length_le
  rwa [Std.ExtTreeMap.length_keys] at length

/-- A left corner of `name` is one level further in, unless `name` has come back to itself. -/
theorem cons (nested : g.Nested seen name)
    (acyclic : ¬ Relation.TransGen g.LeftCorner name name) (ruled : g.contains name = true)
    (corner : g.LeftCorner name inner) : g.Nested (name :: seen) inner := by
  have fresh : name ∉ seen := fun again => acyclic (nested.reach name again)
  refine ⟨List.nodup_cons.mpr ⟨fresh, nested.nodup⟩, ?_, ?_⟩
  · intro outer member
    rcases List.mem_cons.mp member with rfl | old
    · exact ruled
    · exact nested.ruled outer old
  · intro outer member
    rcases List.mem_cons.mp member with rfl | old
    · exact .single corner
    · exact (nested.reach outer old).tail corner

end Nested

theorem finished_sequenceOf {σ α : Type} {p : Symbol → Parser σ α} {symbols : Alternative}
    {budget : Nat} {x : Input σ}
    (each : ∀ before s after, symbols = before ++ s :: after →
      ∀ vs mid, (vs, mid) ∈ ((sequenceOf p before).run budget x).items →
        ((p s).run budget mid).finished = true) :
    ((sequenceOf p symbols).run budget x).finished = true := by
  induction symbols using List.reverseRecOn with
  | nil => simp
  | append_singleton symbols s ih =>
    refine finished_sequenceOf_concat.mpr ⟨ih ?_, each symbols s [] rfl⟩
    intro before t after split vs mid member
    refine each before t (after ++ [s]) ?_ vs mid member
    rw [split, List.append_assoc, List.cons_append]

variable {σ : Type} [Alphabet σ] [DecidableEq σ]
variable {g : Grammar} {o : Options} {x : Input σ}

omit [DecidableEq σ] in
/-- The leaves below a symbol of a progressive grammar are spelt by some symbol. -/
theorem Progressive.spelt_leaves (progressive : g.Progressive σ) {d : Derivation}
    (valid : d.Valid g)
    (root : ∀ lexeme, d.symbol = .terminal lexeme → (Alphabet.spell lexeme : List σ) ≠ []) :
    ∀ name ∈ d.leaves, (Alphabet.spell name : List σ) ≠ [] := by
  induction valid with
  | terminal lexeme =>
    intro name member
    obtain rfl : name = lexeme := by simpa using member
    exact root name rfl
  | @expansion outer alternatives choice children rule chosen each ih =>
    intro name member
    rw [Derivation.leaves_expansion] at member
    obtain ⟨d, child, below⟩ := List.mem_flatMap.mp member
    refine ih d child ?_ name below
    intro lexeme label
    have below_outer := List.mem_map.mpr ⟨d, child, label⟩
    exact progressive.spelt lexeme
      ⟨outer, alternatives, _, rule, List.mem_of_getElem? chosen, below_outer⟩

/-- Symbols at the beginning of an alternative consume something, or else they can all derive
nothing and the input is still the same. -/
theorem Progressive.shorter_or_nullable (progressive : g.Progressive σ) {name : String}
    {alternatives : List Alternative} {before after : Alternative} {ds : List Derivation}
    {mid : Input σ} (rule : g.alternatives? name = some alternatives)
    (among : before ++ after ∈ alternatives) (reads : ReadsAll g o before ds x mid) :
    mid.size < x.size ∨ mid = x ∧ ∀ s ∈ before, g.Nullable s := by
  by_cases silent : ds.flatMap Derivation.leaves = []
  · have unread := reads.spelling
    rw [silent] at unread
    refine .inr ⟨(Option.some.inj unread).symm, ?_⟩
    intro s member
    rw [← reads.symbols] at member
    obtain ⟨d, belongs, rfl⟩ := List.mem_map.mp member
    refine ⟨d.tree, Derivation.label_tree d, (reads.valid d belongs).conforms, ?_⟩
    exact List.flatMap_eq_nil_iff.mp silent d belongs
  · refine .inl (Options.size_lt_of_stripAll? silent ?_ reads.spelling)
    intro leaf member
    obtain ⟨d, belongs, below⟩ := List.mem_flatMap.mp member
    refine progressive.spelt_leaves (reads.valid d belongs) ?_ leaf below
    intro lexeme label
    have at_front : .terminal lexeme ∈ before := by
      rw [← reads.symbols]
      exact List.mem_map.mpr ⟨d, belongs, label⟩
    exact progressive.spelt lexeme
      ⟨name, alternatives, _, rule, among, List.mem_append_left _ at_front⟩

theorem finished_terminal (depth budget : Nat) (name : String) (x : Input σ) :
    ((g.derivationWithin o depth (.terminal name)).run budget x).finished = true := by
  rw [derivationWithin_terminal, Parser.run_map, Results.finished_map, run_terminalParser]
  cases o.strip? x name <;> rfl

/-- The depth needed for a nonterminal that is expanded within the nonterminals `seen`. Each of them
has used up one of the steps that their place of the input allows for; a place further on starts
with all of its steps. -/
theorem Progressive.finished_within (progressive : g.Progressive σ) {depth budget : Nat}
    {name : String} {seen : List String} (nested : g.Nested seen name)
    (enough : x.size * (g.alternativesOf.size + 1) + (g.alternativesOf.size + 1 - seen.length) ≤
      depth) :
    ((g.derivationWithin o depth (.nonterminal name)).run budget x).finished = true := by
  have few := nested.length_le
  induction depth generalizing name seen x with
  | zero => omega
  | succ depth ih =>
    rw [derivationWithin]
    cases rule : g.alternatives? name with
    | none => rfl
    | some alternatives =>
      refine finished_expansionOf.mpr fun symbols among => finished_sequenceOf ?_
      intro before s after split ds mid member
      subst split
      have reads : ReadsAll g o before ds x mid :=
        readsAll_of_mem_sequenceOf (fun _ _ _ _ => reads_of_mem_within) member
      cases s with
      | terminal lexeme => exact finished_terminal depth budget lexeme mid
      | nonterminal inner =>
        rcases progressive.shorter_or_nullable rule among reads with shorter | ⟨rfl, nullable⟩
        · -- something was consumed: the steps of one place pay for starting anew
          have steps := Nat.mul_le_mul_right (g.alternativesOf.size + 1) shorter
          rw [Nat.succ_mul] at steps
          refine ih (.nil g inner) ?_ (Nat.zero_le _)
          rw [List.length_nil]
          omega
        · -- the input is the same: one more nonterminal is being expanded at this place
          have corner : g.LeftCorner name inner :=
            ⟨alternatives, before, after, rule, among, nullable⟩
          have deeper := nested.cons (progressive.acyclic name) (by simp [contains, rule]) corner
          have few' := deeper.length_le
          refine ih deeper ?_ few'
          rw [List.length_cons] at few' ⊢
          omega

/-- The parser of a symbol of a progressive grammar finishes. -/
theorem Progressive.finished_derivationParser (progressive : g.Progressive σ) {budget : Nat}
    (enough : g.expansionBound x ≤ budget) (s : Symbol) :
    ((g.derivationParser o s).run budget x).finished = true := by
  cases s with
  | terminal name => exact finished_terminal budget budget name x
  | nonterminal name =>
    rw [expansionBound, Nat.succ_mul] at enough
    exact progressive.finished_within (.nil g name) enough

omit [Alphabet σ] [DecidableEq σ] in
/-- What is left of an input needs no more than the input. -/
theorem expansionBound_mono {y : Input σ} (g : Grammar) (shorter : y.size ≤ x.size) :
    g.expansionBound y ≤ g.expansionBound x :=
  Nat.mul_le_mul_right _ (Nat.succ_le_succ shorter)

/-- Any sequence of symbols finishes under a progressive grammar, also one that is no alternative
of it. -/
theorem Progressive.finished_sequence (progressive : g.Progressive σ) {budget : Nat}
    (enough : g.expansionBound x ≤ budget) (symbols : Alternative) :
    ((sequenceOf (g.derivationParser o) symbols).run budget x).finished = true := by
  refine finished_sequenceOf ?_
  intro before s after _ ds mid member
  have reads : ReadsAll g o before ds x mid :=
    readsAll_of_mem_sequenceOf (fun _ _ _ _ => reads_of_mem) member
  have shorter := Options.size_le_of_stripAll? reads.spelling
  exact progressive.finished_derivationParser ((expansionBound_mono g shorter).trans enough) s

theorem Progressive.finished_choice (progressive : g.Progressive σ) {budget : Nat}
    (enough : g.expansionBound x ≤ budget) (alternatives : List Alternative) :
    ((choiceOf (g.derivationParser o) alternatives).run budget x).finished = true := by
  rw [choiceOf, Parser.finished_anyOf]
  intro q among
  obtain ⟨symbols, -, rfl⟩ := List.mem_map.mp among
  exact progressive.finished_sequence enough symbols

theorem Progressive.finished_symbolParser (progressive : g.Progressive σ) {budget : Nat}
    (enough : g.expansionBound x ≤ budget) (s : Symbol) :
    ((g.symbolParser o s).run budget x).finished = true := by
  rw [symbolParser_eq_map, Parser.run_map, Results.finished_map]
  exact progressive.finished_derivationParser enough s

/-- From a bound on every budget suffices for a start symbol, and all give the same results. -/
theorem Progressive.exists_startParser_all (progressive : g.Progressive σ) (o : Options)
    (s : Symbol) (x : Input σ) :
    ∃ rs, ∀ budget, g.expansionBound x ≤ budget → (g.startParser o s).all budget x = some rs := by
  have symbols : ∀ budget, g.expansionBound x ≤ budget → (g.symbolParser o s).all budget x =
      some ((g.symbolParser o s).run (g.expansionBound x) x).items := by
    intro budget enough
    have finished := progressive.finished_symbolParser (o := o) (Nat.le_refl (g.expansionBound x)) s
    exact (approximates_symbolParser enough s x).toList?
      (Results.toList?_eq_some_iff.mpr ⟨finished, rfl⟩)
  unfold startParser
  split
  case h_1 n _ =>
    refine ⟨(((g.symbolParser o s).run (g.expansionBound x) x).items).take n, ?_⟩
    intro budget enough
    exact Parser.toList?_run_limit n (symbols budget enough)
  case h_2 => exact ⟨_, symbols⟩

/-- Every symbol of a progressive grammar has finitely many results on every input, and expanding
it comes to an end: from a bound on that depends on the number of rules and the length of the
input, every budget suffices and all budgets give the same result set. -/
theorem symbolParser_terminates (progressive : g.Progressive σ) (o : Options) (s : Symbol)
    (x : Input σ) (budget : Nat) (enough : g.expansionBound x ≤ budget) :
    ((g.symbolParser o s).run budget x).finished = true ∧
      (g.symbolParser o s).run budget x = (g.symbolParser o s).run (g.expansionBound x) x := by
  refine ⟨progressive.finished_symbolParser enough s, ?_⟩
  have at_bound := progressive.finished_symbolParser (o := o) (Nat.le_refl (g.expansionBound x)) s
  exact (approximates_symbolParser enough s x).eq_of_finished at_bound

theorem alternatives?_signedList (name : String) : signedList.alternatives? name =
    if name = "SIGN" then some [[.terminal "-"], [], []]
    else if name = "LIST" then
      some [[.nonterminal "SIGN", .terminal "x", .nonterminal "LIST"], [],
        [.nonterminal "MISSING"]]
    else none := by
  simp [signedList, ofRules, alternatives?_addRule]

/-- A sign is part of a list, and not the other way round. -/
def signedListRank (name : String) : Nat :=
  if name = "LIST" then 1 else 0

theorem signedList_descends {name : String} {alternatives : List Alternative}
    (rule : signedList.alternatives? name = some alternatives) :
    ∀ symbols ∈ alternatives,
      (∀ inner ∈ leading symbols, signedListRank inner < signedListRank name) ∧
        ∀ lexeme, .terminal lexeme ∈ symbols → (Alphabet.spell lexeme : List Char) ≠ [] := by
  rw [alternatives?_signedList] at rule
  split at rule
  · obtain rfl := Option.some.inj rule
    simp [leading, Symbol.isTerminal, Alphabet.spell]
  · split at rule
    · rename_i list
      obtain rfl := Option.some.inj rule
      subst list
      simp [leading, signedListRank, Symbol.isTerminal, Symbol.name, Alphabet.spell]
    · cases rule

/-- The sign before an element is nullable, and so are the lists, but a list only comes back behind
an `x`. -/
theorem signedList_progressive : signedList.Progressive Char :=
  .of_rank signedListRank fun _ _ => signedList_descends

theorem signedList_terminates :
    signedList.Progressive Char ∧ signedList.expansionBound (Input.ofString " -x") = 12 ∧
      ((signedList.symbolParser {} (.nonterminal "LIST")).run 100
        (Input.ofString " -x")).finished = true ∧
      ((signedList.symbolParser {} (.nonterminal "LIST")).run 9
        (Input.ofList ["-", "x"])).finished = true := by
  have tokens : signedList.Progressive String :=
    progressive_tokens_iff.mpr signedList_progressive.acyclic
  have text_run := symbolParser_terminates signedList_progressive {} (.nonterminal "LIST")
    (Input.ofString " -x") 100 (by decide)
  have token_run := symbolParser_terminates tokens {} (.nonterminal "LIST")
    (Input.ofList ["-", "x"]) 9 (by decide)
  exact ⟨signedList_progressive, rfl, text_run.1, token_run.1⟩

end AllParses.Grammar
