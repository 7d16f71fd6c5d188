import AllParses.Grammar.Parsing
import Mathlib.Data.List.TakeWhile

/-!
# What the leaves of a parse take from the input

A parse consumes its leaves one by one: each is stripped from the front of what is left, after the
layout before it where the options say so. `Options.stripAll?` is this for a whole list of leaves,
so it fixes what a parse with given leaves has to leave over.

* Without layout to skip, the input is the spelling of the leaves followed by what is left
  (`stripAll?_eq_some_iff_of_plain`).
* Otherwise the input has a gap before every leaf, and the gaps hold nothing but layout
  (`gaps_of_stripAll?`).
* What is left is shorter by at least one symbol for every leaf that is spelt by one or more
  symbols (`size_lt_of_stripAll?`).
-/
namespace AllParses.Grammar

variable {σ : Type} [Alphabet σ] [DecidableEq σ]

/-- Where a lexeme is looked for: behind the layout, if layout is skipped. -/
def Options.position (o : Options) (x : Input σ) : Input σ :=
  if o.skipLayout then x.skipLayout else x

/-- What follows one lexeme, which may have layout before it if layout is skipped. -/
def Options.strip? (o : Options) (x : Input σ) (name : String) : Option (Input σ) :=
  (o.position x).strip? name

/-- What follows several lexemes, stripped one after the other. -/
def Options.stripAll? (o : Options) (x : Input σ) : List String → Option (Input σ)
  | [] => some x
  | name :: names => (o.strip? x name).bind fun rest => o.stripAll? rest names

theorem run_terminalParser (o : Options) (name : String) (budget : Nat) (x : Input σ) :
    (terminalParser o name).run budget x =
      .ofOption ((o.strip? x name).map fun rest => (.terminal name, rest)) := by
  have literal_run : ∀ found : Option (Input σ),
      (Results.ofOption (found.map fun rest => ((), rest))).map
          (fun r : Unit × Input σ => (ParseTree.terminal name, r.2)) =
        .ofOption (found.map fun rest => (.terminal name, rest)) := by
    intro found
    cases found <;> rfl
  unfold terminalParser Options.strip? Options.position
  cases o.skipLayout
  · exact literal_run (x.strip? name)
  · exact literal_run (x.skipLayout.strip? name)

namespace Options

variable {o : Options}

@[simp] theorem stripAll?_nil (x : Input σ) : o.stripAll? x [] = some x := rfl

@[simp] theorem stripAll?_singleton (x : Input σ) (name : String) :
    o.stripAll? x [name] = o.strip? x name := by
  rw [stripAll?]
  cases o.strip? x name <;> rfl

theorem stripAll?_append (x : Input σ) (names more : List String) :
    o.stripAll? x (names ++ more) = (o.stripAll? x names).bind fun rest => o.stripAll? rest more := by
  induction names generalizing x with
  | nil => rfl
  | cons name names ih =>
    rw [List.cons_append, stripAll?, stripAll?, Option.bind_assoc]
    congr 1
    funext rest
    exact ih rest

/-- Nothing is skipped: the options do not ask for it, or the symbols include no layout. -/
def Plain (σ : Type) [Alphabet σ] (o : Options) : Prop :=
  o.skipLayout = false ∨ ∀ c : σ, Alphabet.isLayout c = false

theorem plain_tokens (o : Options) : o.Plain String :=
  .inr fun _ => rfl

omit [DecidableEq σ] in
theorem symbols_position_of_plain (plain : o.Plain σ) (x : Input σ) :
    (o.position x).symbols = x.symbols := by
  unfold position
  rcases plain with off | none
  · simp [off]
  · split
    · rw [Input.symbols_skipLayout]
      cases x.symbols with
      | nil => rfl
      | cons c cs => simp [none c]
    · rfl

/-- Where nothing is skipped, the leaves are spelt at the front of the input. -/
theorem stripAll?_eq_some_iff_of_plain (plain : o.Plain σ) {x rest : Input σ} {names : List String} :
    o.stripAll? x names = some rest ↔
      x.symbols = names.flatMap Alphabet.spell ++ rest.symbols := by
  induction names generalizing x with
  | nil =>
    rw [stripAll?_nil, Option.some.injEq]
    exact Input.eq_iff
  | cons name names ih =>
    rw [stripAll?, Option.bind_eq_some_iff, List.flatMap_cons, List.append_assoc]
    constructor
    · rintro ⟨mid, first, later⟩
      rw [strip?, Input.strip?_eq_some_iff, symbols_position_of_plain plain] at first
      rw [first, ih.mp later]
    · intro spelt
      refine ⟨Input.ofList (names.flatMap Alphabet.spell ++ rest.symbols), ?_, ih.mpr rfl⟩
      rw [strip?, Input.strip?_eq_some_iff, symbols_position_of_plain plain]
      exact spelt

theorem flatMap_spell_tokens (names : List String) :
    names.flatMap (Alphabet.spell : String → List String) = names :=
  List.flatMap_singleton' names

/-- The symbols that are skipped before a lexeme are layout. -/
theorem gap_of_strip? {x rest : Input σ} {name : String} (read : o.strip? x name = some rest) :
    ∃ gap : List σ, (∀ c ∈ gap, Alphabet.isLayout c = true) ∧
      x.symbols = gap ++ (Alphabet.spell name ++ rest.symbols) := by
  rw [strip?, Input.strip?_eq_some_iff] at read
  unfold position at read
  split at read
  · refine ⟨x.symbols.takeWhile Alphabet.isLayout, fun c member => List.mem_takeWhile_imp member, ?_⟩
    rw [← read, Input.symbols_skipLayout, List.takeWhile_append_dropWhile]
  · exact ⟨[], by simp, read⟩

/-- A gap before each leaf is all that the input holds beside the leaves and what is left. -/
theorem gaps_of_stripAll? {x rest : Input σ} {names : List String}
    (read : o.stripAll? x names = some rest) :
    ∃ gaps : List (List σ), gaps.length = names.length ∧
      (∀ gap ∈ gaps, ∀ c ∈ gap, Alphabet.isLayout c = true) ∧
      x.symbols =
        ((gaps.zip names).flatMap fun (gap, name) => gap ++ Alphabet.spell name) ++ rest.symbols := by
  induction names generalizing x with
  | nil =>
    have same : x = rest := Option.some.inj read
    exact ⟨[], rfl, by simp, by simp [same]⟩
  | cons name names ih =>
    obtain ⟨mid, first, later⟩ := Option.bind_eq_some_iff.mp read
    obtain ⟨gap, layout, front⟩ := gap_of_strip? first
    obtain ⟨gaps, count, layouts, back⟩ := ih later
    refine ⟨gap :: gaps, by simp [count], ?_, ?_⟩
    · intro other member
      rcases List.mem_cons.mp member with rfl | among
      · exact layout
      · exact layouts other among
    · rw [front, back, List.zip_cons_cons, List.flatMap_cons, List.append_assoc, List.append_assoc]

theorem size_of_strip? {x rest : Input σ} {name : String} (read : o.strip? x name = some rest) :
    rest.size + (Alphabet.spell name : List σ).length ≤ x.size := by
  obtain ⟨gap, -, split⟩ := gap_of_strip? read
  rw [rest.size_eq, x.size_eq, split, List.length_append, List.length_append]
  omega

theorem size_le_of_stripAll? {x rest : Input σ} {names : List String}
    (read : o.stripAll? x names = some rest) : rest.size ≤ x.size := by
  induction names generalizing x with
  | nil =>
    have same : x = rest := Option.some.inj read
    exact Nat.le_of_eq (congrArg Input.size same.symm)
  | cons name names ih =>
    obtain ⟨mid, first, later⟩ := Option.bind_eq_some_iff.mp read
    have front := size_of_strip? first
    have back := ih later
    omega

/-- Leaves that are spelt by some symbol leave less than there was. -/
theorem size_lt_of_stripAll? {x rest : Input σ} {names : List String} (some_leaf : names ≠ [])
    (spelt : ∀ name ∈ names, (Alphabet.spell name : List σ) ≠ [])
    (read : o.stripAll? x names = some rest) : rest.size < x.size := by
  cases names with
  | nil => exact absurd rfl some_leaf
  | cons name names =>
    obtain ⟨mid, first, later⟩ := Option.bind_eq_some_iff.mp read
    have front := size_of_strip? first
    have back := size_le_of_stripAll? later
    have long := List.length_pos_iff.mpr (spelt name (by simp))
    omega

/-- When the input has a lexeme at its front and no other name can stand there, only this lexeme can
be stripped. -/
theorem strip?_of_front {x rest : Input σ} {lexeme name : String}
    (front : (o.position x).symbols = Alphabet.spell lexeme ++ rest.symbols)
    (only : ∀ more : List σ, Alphabet.spell lexeme ++ rest.symbols = Alphabet.spell name ++ more →
      name = lexeme) : o.strip? x name = if name = lexeme then some rest else none := by
  split
  case isTrue same =>
    subst same
    rwa [strip?, Input.strip?_eq_some_iff]
  case isFalse different =>
    rw [Option.eq_none_iff_forall_ne_some]
    intro left read
    rw [strip?, Input.strip?_eq_some_iff, front] at read
    exact different (only left.symbols read)

/-- Where nothing is left, no lexeme that is spelt by some symbol can be stripped. -/
theorem strip?_of_empty (o : Options) {name : String}
    (spelt : (Alphabet.spell name : List σ) ≠ []) :
    o.strip? (Input.ofList ([] : List σ)) name = none := by
  rw [Option.eq_none_iff_forall_ne_some]
  intro rest read
  have short := size_of_strip? read
  have long := List.length_pos_iff.mpr spelt
  simp only [Input.ofList, List.length_nil] at short
  omega

end Options

end AllParses.Grammar
