import AllParses.Proofs.Pattern.Standard
import AllParses.Proofs.Recognizer

/-!
# Patterns that are bound to the start

The recognizer of a pattern puts the text of the pattern behind the condition that the text starts
here, in a group of its own. If the text is a pattern by itself, it stays in this group, and every
match begins where the text begins. Since a match that ends there is dropped, it is not empty either.
This holds with every engine that does what is documented (`pattern_is_anchored`).

A text that closes the group is a pattern in the group only. The condition then holds for what comes
before its first choice, and the other alternatives may begin anywhere.
-/
namespace AllParses.Recognizer

open Pattern

variable {engine : Engine}

/-- A pattern that is one by itself is bound to the start of the text. -/
theorem first_eq_zero {Matches : engine.Regex → List Char → Match → Prop}
    (documented : engine.Documented Matches) {pattern : String} {regex : engine.Regex}
    {text : List Char} {m : Match} (closed : (engine.compile pattern.toList).isSome = true)
    (accepted : engine.compile (anchored pattern) = some regex)
    (found : engine.find regex text = some m) : m.first = 0 := by
  obtain ⟨start, known⟩ := Option.isSome_iff_exists.mp documented.hasTextStart
  obtain ⟨alone, closed⟩ := Option.isSome_iff_exists.mp closed
  obtain ⟨mid, at_start, -⟩ :=
    documented.textStart_group known closed accepted (documented.found found)
  exact congrArg Match.first (documented.textStart known at_start)

/-- A result is a match that does not end where the text starts. -/
theorem exists_match {regex : engine.Regex} {budget : Nat} {x rest : Input Char} {lexeme : String}
    (member : (lexeme, rest) ∈ ((matching engine regex).run budget x).items) :
    ∃ m : Match, engine.find regex x.symbols = some m ∧ m.last ≠ 0 ∧
      lexeme.toList = (x.symbols.drop m.first).take (m.last - m.first) ∧
      rest.symbols = x.symbols.drop m.last := by
  unfold matching at member
  dsimp only at member
  split at member
  case h_1 => simp at member
  case h_2 m found =>
    split at member
    case isTrue => simp at member
    case isFalse moves =>
      obtain ⟨same, rfl⟩ := Prod.mk.inj (List.mem_singleton.mp member)
      refine ⟨m, found, moves, ?_, rfl⟩
      rw [same, String.toList_ofList, Input.symbols_take, Input.symbols_drop]

/-- What an engine finds is a result, unless it ends where the text starts. -/
theorem exists_pattern_of_find {text : String} {regex : engine.Regex} {x : Input Char} {m : Match}
    (compiled : engine.compile (anchored text) = some regex)
    (found : engine.find regex x.symbols = some m) (moves : m.last ≠ 0) :
    ∃ p : Parser Char String, pattern engine text = .ok p ∧ ∀ budget,
      (String.ofList ((x.drop m.first).take (m.last - m.first)).symbols, x.drop m.last) ∈
        (p.run budget x).items := by
  refine ⟨matching engine regex, ?_, fun budget => ?_⟩
  · rw [pattern, compiled]
  · unfold matching
    dsimp only
    rw [found]
    simp [moves]

/-- With an engine that does what is documented, what a pattern finds stands directly before what is
left. A pattern that is one by itself skips nothing, and what it finds is not empty. -/
theorem pattern_is_anchored {Matches : engine.Regex → List Char → Match → Prop}
    (documented : engine.Documented Matches) {text : String} {p : Parser Char String}
    (accepted : pattern engine text = .ok p) {budget : Nat} {x rest : Input Char} {lexeme : String}
    (member : (lexeme, rest) ∈ (p.run budget x).items) :
    (∃ skipped, x.symbols = skipped ++ (lexeme.toList ++ rest.symbols)) ∧
      ((engine.compile text.toList).isSome = true →
        lexeme ≠ "" ∧ x.symbols = lexeme.toList ++ rest.symbols) := by
  unfold pattern at accepted
  split at accepted
  case h_2 => cases accepted
  case h_1 regex compiled =>
    cases accepted
    obtain ⟨m, found, moves, lexeme_eq, rest_eq⟩ := exists_match member
    obtain ⟨ordered, inside⟩ := documented.inside (documented.found found)
    have behind : lexeme.toList ++ rest.symbols = x.symbols.drop m.first := by
      have split := List.take_append_drop (m.last - m.first) (x.symbols.drop m.first)
      rwa [List.drop_drop, Nat.add_sub_cancel' ordered, ← lexeme_eq, ← rest_eq] at split
    refine ⟨⟨x.symbols.take m.first, ?_⟩, fun closed => ?_⟩
    · rw [behind, List.take_append_drop]
    · have front : m.first = 0 := first_eq_zero documented closed compiled found
      refine ⟨?_, by rw [behind, front, List.drop_zero]⟩
      rintro rfl
      rw [front, List.drop_zero, Nat.sub_zero] at lexeme_eq
      have length := congrArg List.length lexeme_eq
      rw [List.length_take, Nat.min_eq_left inside] at length
      exact moves length.symm

/-- What the standard engine finds, said in one equation. -/
theorem exists_of_standard_find {text : String} {x : List Char} {m : Match}
    (found : ((standard.compile (anchored text)).map fun regex => standard.find regex x) =
      some (some m)) :
    ∃ regex, standard.compile (anchored text) = some regex ∧ standard.find regex x = some m := by
  obtain ⟨regex, compiled, found⟩ := Option.map_eq_some_iff.mp found
  exact ⟨regex, compiled, found⟩

/-- An alternative in brackets of its own closes no group but this one. -/
theorem closed_pattern_is_anchored :
    ∃ p : Parser Char String, pattern standard "a|(b+)" = .ok p ∧
      (standard.compile "a|(b+)".toList).isSome = true ∧
      ("bb", Input.ofString "c") ∈ (p.run 0 (.ofString "bbc")).items ∧
      "bb" ≠ "" ∧ (Input.ofString "bbc").symbols = "bb".toList ++ (Input.ofString "c").symbols := by
  have closed : (standard.compile "a|(b+)".toList).isSome = true := by decide +kernel
  have found : ((standard.compile (anchored "a|(b+)")).map fun regex =>
      standard.find regex (Input.ofString "bbc").symbols) = some (some ⟨0, 2⟩) := by decide +kernel
  obtain ⟨regex, compiled, found⟩ := exists_of_standard_find found
  obtain ⟨p, accepted, member⟩ := exists_pattern_of_find compiled found (by decide)
  exact ⟨p, accepted, closed, member 0,
    (pattern_is_anchored standard_documented accepted (member 0)).2 closed⟩

/-- A pattern that closes the group around it is bound to the start with its first alternative only.
Where an engine finds the second one, it skips a character, or finds nothing behind the first character.
The standard engine does find it. -/
theorem unclosed_pattern_escapes :
    (∀ (engine : Engine) (regex : engine.Regex),
      engine.compile (anchored "a)|(b") = some regex →
      engine.find regex (Input.ofString "xb").symbols = some ⟨1, 2⟩ →
      ∃ p : Parser Char String, pattern engine "a)|(b" = .ok p ∧
        ("b", Input.ofString "") ∈ (p.run 0 (.ofString "xb")).items ∧
        (Input.ofString "xb").symbols ≠ "b".toList ++ (Input.ofString "").symbols) ∧
    (∀ (engine : Engine) (regex : engine.Regex),
      engine.compile (anchored "a)|($") = some regex →
      engine.find regex (Input.ofString "x").symbols = some ⟨1, 1⟩ →
      ∃ p : Parser Char String, pattern engine "a)|($" = .ok p ∧
        ("", Input.ofString "") ∈ (p.run 0 (.ofString "x")).items) ∧
    (∃ regex, standard.compile (anchored "a)|(b") = some regex ∧
      standard.find regex (Input.ofString "xb").symbols = some ⟨1, 2⟩) ∧
    ∃ regex, standard.compile (anchored "a)|($") = some regex ∧
      standard.find regex (Input.ofString "x").symbols = some ⟨1, 1⟩ := by
  refine ⟨fun engine regex compiled found => ?_, fun engine regex compiled found => ?_,
    exists_of_standard_find (by decide +kernel), exists_of_standard_find (by decide +kernel)⟩
  · obtain ⟨p, accepted, member⟩ := exists_pattern_of_find compiled found (by decide)
    exact ⟨p, accepted, member 0, by decide⟩
  · obtain ⟨p, accepted, member⟩ := exists_pattern_of_find compiled found (by decide)
    exact ⟨p, accepted, member 0⟩

end AllParses.Recognizer
