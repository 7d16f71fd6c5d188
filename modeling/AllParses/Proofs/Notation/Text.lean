import AllParses.Proofs.Notation.Alternatives
import AllParses.Proofs.Notation.Steady

/-!
# Grammar texts

What a text of the notation looks like when names are runs of characters: `GrammarText` relates a
list of rules to its texts, without a word about how they are read. Layout is free except between
names of one class, where there must be some, since a run takes all it can get.

Here the texts are defined, and their names are read. With classes that are `Separate` a lexicon is
sharp, and a name is read exactly where it stands behind some layout and its class ends.
-/
namespace AllParses

open Grammar (Symbol Alternative Rule)

/-- Layout, possibly none. -/
def IsGap (gap : List Char) : Prop :=
  ∀ c ∈ gap, Unicode.isWhiteSpace c = true

instance (gap : List Char) : Decidable (IsGap gap) :=
  decidable_of_iff (gap.all Unicode.isWhiteSpace = true) List.all_eq_true

/-- The characters that names are made of: names of nonterminals and names of terminals. -/
structure NameClasses where
  nonterminal : Char → Bool
  terminal : Char → Bool

namespace NameClasses

/-- The lexicon whose names are the runs of the two classes. -/
def lexicon (k : NameClasses) : Lexicon :=
  ⟨Recognizer.run k.nonterminal, Recognizer.run k.terminal⟩

/-- No character is in both classes, and layout and the marks of the notation are in neither. -/
structure Separate (k : NameClasses) : Prop where
  disjoint : ∀ c, k.nonterminal c = true → k.terminal c = false
  layout : ∀ c, Unicode.isWhiteSpace c = true → k.nonterminal c = false ∧ k.terminal c = false
  marks : ∀ c ∈ ['|', '.', ':'], k.nonterminal c = false ∧ k.terminal c = false

/-- The class of a symbol's name. -/
def of (k : NameClasses) : Symbol → Char → Bool
  | .nonterminal _ => k.nonterminal
  | .terminal _ => k.terminal

/-- The name of the symbol is a run of its class and not empty. -/
structure Names (k : NameClasses) (s : Symbol) : Prop where
  nonempty : s.name.toList ≠ []
  inside : ∀ c ∈ s.name.toList, k.of s c = true

instance (k : NameClasses) (s : Symbol) : Decidable (k.Names s) :=
  decidable_of_iff (s.name.toList ≠ [] ∧ s.name.toList.all (k.of s) = true)
    ⟨fun both => ⟨both.1, List.all_eq_true.mp both.2⟩,
      fun names => ⟨names.nonempty, List.all_eq_true.mpr names.inside⟩⟩

/-- The text of an alternative: its names, each with layout before it. Between names of one class
there is some layout. -/
inductive AlternativeText (k : NameClasses) : Alternative → List Char → Prop where
  | nil : AlternativeText k [] []
  | cons {s : Symbol} {symbols : Alternative} {gap text : List Char} (layout : IsGap gap)
    (name : k.Names s) (later : AlternativeText k symbols text)
    (apart : ∀ next ∈ symbols.head?, next.isTerminal = s.isTerminal →
      ∃ c ∈ text.head?, Unicode.isWhiteSpace c = true) :
    AlternativeText k (s :: symbols) (gap ++ (s.name.toList ++ text))

/-- The text of one or more alternatives, with `|` between them. -/
inductive AlternativesText (k : NameClasses) : List Alternative → List Char → Prop where
  | one {symbols : Alternative} {text : List Char} (alternative : k.AlternativeText symbols text) :
    AlternativesText k [symbols] text
  | more {symbols : Alternative} {alternatives : List Alternative} {text gap more : List Char}
    (alternative : k.AlternativeText symbols text) (layout : IsGap gap)
    (later : AlternativesText k alternatives more) :
    AlternativesText k (symbols :: alternatives) (text ++ (gap ++ '|' :: more))

/-- The text of a rule: its name, `::=`, its alternatives and `.`, with layout before each. -/
inductive RuleText (k : NameClasses) : Rule → List Char → Prop where
  | intro {name : String} {alternatives : List Alternative} {front mid text last : List Char}
    (layout : IsGap front) (head : k.Names (.nonterminal name)) (layout_mark : IsGap mid)
    (body : k.AlternativesText alternatives text) (layout_dot : IsGap last) :
    RuleText k (name, alternatives)
      (front ++ (name.toList ++ (mid ++ ("::=".toList ++ (text ++ (last ++ ['.']))))))

/-- The text of a grammar: its rules, and layout at the end. -/
inductive GrammarText (k : NameClasses) : List Rule → List Char → Prop where
  | nil {gap : List Char} (layout : IsGap gap) : GrammarText k [] gap
  | cons {rule : Rule} {rules : List Rule} {text more : List Char} (first : k.RuleText rule text)
    (later : GrammarText k rules more) : GrammarText k (rule :: rules) (text ++ more)

/-! ## Layout and marks -/

theorem skipLayout_gap {gap text : List Char} (layout : IsGap gap)
    (outside : BeginsOutside Unicode.isWhiteSpace text) :
    (Input.ofList (gap ++ text)).skipLayout = .ofList text :=
  Input.ext (by rw [Input.symbols_skipLayout]; exact outside.dropWhile_append layout)

/-- An input is layout and what is left behind it. -/
theorem exists_gap (x : Input Char) :
    ∃ gap, IsGap gap ∧ x.symbols = gap ++ x.skipLayout.symbols := by
  refine ⟨x.symbols.takeWhile Unicode.isWhiteSpace, fun c => List.mem_takeWhile_imp, ?_⟩
  rw [Input.symbols_skipLayout]
  exact List.takeWhile_append_dropWhile.symm

theorem skipLayout_isEmpty_iff {x : Input Char} : x.skipLayout.isEmpty = true ↔ IsGap x.symbols := by
  rw [Input.isEmpty, Input.symbols_skipLayout, List.isEmpty_iff, List.dropWhile_eq_nil_iff]
  rfl

variable {k : NameClasses}

namespace Separate

theorem of_layout (separate : k.Separate) (s : Symbol) {c : Char}
    (layout : Unicode.isWhiteSpace c = true) : k.of s c = false := by
  cases s with
  | nonterminal => exact (separate.layout c layout).1
  | terminal => exact (separate.layout c layout).2

theorem of_mark (separate : k.Separate) (s : Symbol) {c : Char} (mark : c ∈ ['|', '.', ':']) :
    k.of s c = false := by
  cases s with
  | nonterminal => exact (separate.marks c mark).1
  | terminal => exact (separate.marks c mark).2

/-- Characters of one class are not in the other. -/
theorem of_other (separate : k.Separate) {s t : Symbol} (other : t.isTerminal ≠ s.isTerminal)
    {c : Char} (inside : k.of t c = true) : k.of s c = false := by
  cases s <;> cases t
  case nonterminal.terminal =>
    refine Bool.eq_false_iff.mpr fun both => ?_
    exact absurd inside (Bool.eq_false_iff.mp (separate.disjoint c both))
  case terminal.nonterminal => exact separate.disjoint c inside
  all_goals exact absurd rfl other

/-- A class does not go on through layout. -/
theorem beginsOutside_gap (separate : k.Separate) {s : Symbol} {gap text : List Char}
    (layout : IsGap gap) (outside : BeginsOutside (k.of s) text) :
    BeginsOutside (k.of s) (gap ++ text) := by
  cases gap with
  | nil => exact outside
  | cons c gap =>
    have blank := layout c List.mem_cons_self
    exact BeginsOutside.cons_iff.mpr (separate.of_layout s blank)

end Separate

/-- Nonterminals are written in the letters `A` to `Z`, terminals in the letters `a` to `z`. -/
def letters : NameClasses :=
  ⟨fun c => 'A' ≤ c && c ≤ 'Z', fun c => 'a' ≤ c && c ≤ 'z'⟩

theorem letters_nonterminal_iff {c : Char} :
    letters.nonterminal c = true ↔ 65 ≤ c.toNat ∧ c.toNat ≤ 90 := by
  simp [letters, Char.le_def, UInt32.le_iff_toNat_le]

theorem letters_terminal_iff {c : Char} :
    letters.terminal c = true ↔ 97 ≤ c.toNat ∧ c.toNat ≤ 122 := by
  simp [letters, Char.le_def, UInt32.le_iff_toNat_le]

theorem letters_separate : letters.Separate where
  disjoint c upper := by
    rw [Bool.eq_false_iff, Ne, letters_terminal_iff]
    have bounds := letters_nonterminal_iff.mp upper
    omega
  layout c blank := by
    rw [Bool.eq_false_iff, Bool.eq_false_iff, Ne, Ne, letters_nonterminal_iff, letters_terminal_iff]
    simp [Unicode.isWhiteSpace, Unicode.Ranges.contains, Unicode.whiteSpaceRanges] at blank
    omega
  marks c mark := by
    simp only [List.mem_cons, List.not_mem_nil, or_false] at mark
    rcases mark with rfl | rfl | rfl <;> decide

/-- A name begins with a character of its class, and so with no layout. -/
theorem Names.beginsOutside (separate : k.Separate) {s : Symbol} (name : k.Names s)
    (text : List Char) :
    BeginsOutside Unicode.isWhiteSpace (s.name.toList ++ text) := by
  obtain ⟨c, cs, spelt⟩ := List.exists_cons_of_ne_nil name.nonempty
  rw [spelt, List.cons_append, BeginsOutside.cons_iff]
  by_contra layout
  have inside := name.inside c (by simp [spelt])
  rw [separate.of_layout s (by simpa using layout)] at inside
  cases inside

/-! ## Names -/

theorem lexicon_steady (k : NameClasses) : k.lexicon.Steady :=
  ⟨Recognizer.run_steady _, Recognizer.run_steady _⟩

theorem Separate.sharp (separate : k.Separate) : k.lexicon.Sharp := by
  refine ⟨fun x _ => Recognizer.run_sharpAt _ x, fun x _ => Recognizer.run_sharpAt _ x, ?_, ?_⟩
  · intro x _
    cases first : x.head? with
    | none =>
      have empty : BeginsOutside k.nonterminal x.symbols := by
        intro c member
        cases first.symm.trans member
      exact .inl (Input.ofList_symbols x ▸ Recognizer.run_refuses empty)
    | some c =>
      by_cases inside : k.nonterminal c = true
      · exact .inr (Recognizer.run_refuses_of_head first (separate.disjoint c inside))
      · exact .inl (Recognizer.run_refuses_of_head first (Bool.eq_false_iff.mpr inside))
  · rintro x _ (bar | dot)
    · have outside := separate.marks '|' (by decide)
      exact ⟨Recognizer.run_refuses_of_head bar outside.1,
        Recognizer.run_refuses_of_head bar outside.2⟩
    · have outside := separate.marks '.' (by decide)
      exact ⟨Recognizer.run_refuses_of_head dot outside.1,
        Recognizer.run_refuses_of_head dot outside.2⟩

/-- A name is read where it stands behind some layout and its class ends behind it. -/
theorem Names.settles (separate : k.Separate) {s : Symbol} (name : k.Names s)
    {gap rest : List Char} (layout : IsGap gap) (outside : BeginsOutside (k.of s) rest) :
    k.lexicon.symbolReader.Settles (.ofList (gap ++ (s.name.toList ++ rest)))
      [(s, .ofList rest)] := by
  have position := skipLayout_gap layout (name.beginsOutside separate rest)
  have read := Recognizer.run_settles name.nonempty name.inside outside
  obtain ⟨c, cs, spelt⟩ := List.exists_cons_of_ne_nil name.nonempty
  have first : (Input.ofList (s.name.toList ++ rest)).head? = some c := by
    rw [spelt]
    rfl
  have inside : k.of s c = true := name.inside c (by simp [spelt])
  rw [String.ofList_toList, ← position] at read
  rw [← position] at first
  cases s with
  | nonterminal word =>
    have refused := Recognizer.run_refuses_of_head first (separate.disjoint c inside)
    exact Lexicon.symbolReader_settles (l := k.lexicon) refused read
  | terminal word =>
    have other : k.nonterminal c = false :=
      separate.of_other (s := .nonterminal word) (t := .terminal word) (by simp [Symbol.isTerminal])
        inside
    have refused := Recognizer.run_refuses_of_head first other
    exact Lexicon.symbolReader_settles (l := k.lexicon) read refused

/-- Behind layout a name stands, or nothing that a name could begin with. -/
theorem exists_name_or_outside (x : Input Char) :
    (∃ gap s rest, IsGap gap ∧ k.Names s ∧ BeginsOutside (k.of s) rest ∧
      x.symbols = gap ++ (s.name.toList ++ rest)) ∨ k.lexicon.symbolReader.Settles x [] := by
  obtain ⟨gap, layout, position⟩ := exists_gap x
  rcases Recognizer.run_sharpAt k.nonterminal x.skipLayout with refused | ⟨name, rest, read, -⟩
  · rcases Recognizer.run_sharpAt k.terminal x.skipLayout with refused' | ⟨name, rest, read, -⟩
    · exact .inr (Lexicon.symbolReader_settles (l := k.lexicon) refused' refused)
    · obtain ⟨some_character, inside, outside, split⟩ := Recognizer.exists_run_of_settles read
      exact .inl ⟨gap, .terminal name, rest.symbols, layout, ⟨some_character, inside⟩, outside,
        position.trans (congrArg (gap ++ ·) split)⟩
  · obtain ⟨some_character, inside, outside, split⟩ := Recognizer.exists_run_of_settles read
    exact .inl ⟨gap, .nonterminal name, rest.symbols, layout, ⟨some_character, inside⟩, outside,
      position.trans (congrArg (gap ++ ·) split)⟩

/-- What is read as a symbol is layout and its name, up to where the name's class ends. -/
theorem exists_name_of_settles (separate : k.Separate) {x rest : Input Char} {s : Symbol}
    (read : k.lexicon.symbolReader.Settles x [(s, rest)]) :
    ∃ gap, IsGap gap ∧ k.Names s ∧ BeginsOutside (k.of s) rest.symbols ∧
      x.symbols = gap ++ (s.name.toList ++ rest.symbols) := by
  rcases exists_name_or_outside x with found | refused
  · obtain ⟨gap, t, rest', layout, name, outside, text⟩ := found
    have read' := name.settles separate layout outside
    rw [← text, Input.ofList_symbols] at read'
    obtain ⟨rfl, rfl⟩ := by simpa using read.unique read'
    exact ⟨gap, layout, name, outside, text⟩
  · simpa using read.unique refused

end NameClasses

end AllParses
