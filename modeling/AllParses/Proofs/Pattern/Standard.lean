import AllParses.Pattern.Standard
import AllParses.Proofs.Pattern.Groups
import AllParses.Proofs.Pattern.Program

/-!
# The standard engine keeps its word

The standard engine finds what is documented (`standard_documented`), where what a compiled pattern
matches is what its program accepts.

That it finds nothing else is a matter of the search. That a pattern in a group of its own behind `\A`
means what `\A` and the pattern mean is a matter of the reader: the text of the pattern is read alike in
the group, and its program is the same one place further on (`read_anchored`).
-/
namespace AllParses.Pattern

open Groups

/-- A sequence that begins with a condition is no choice. -/
theorem branches_sequence_check (b : Boundary) (ps : List Pattern) :
    (sequence (check b :: ps)).branches = [sequence (check b :: ps)] := by
  have front : ((check b :: ps).flatMap items).foldr pushItem [] =
      check b :: (ps.flatMap items).foldr pushItem [] := rfl
  rw [sequence, front, chain?_cons, Option.getD_some]
  cases chain? seq ((ps.flatMap items).foldr pushItem []) <;> rfl

/-- A choice of one alternative that is no choice itself is that alternative. -/
theorem choice_singleton {p : Pattern} (single : p.branches = [p]) : choice [p] = p := by
  have fuel : [p].foldl (fun n p => n + p.size) 1 = p.size + 1 := Nat.add_comm 1 p.size
  rw [choice, fuel, choiceOf, List.flatMap_singleton, single]

/-- Nothing has been read. -/
def Groups.start : Groups :=
  ⟨{ numbered := false, flags := {} }, [], []⟩

/-- A text that is a pattern by itself is read alike behind the condition and in the group. -/
theorem read_anchored {text : List Char} {part whole : Part} {fuel fuel' : Nat}
    (closed : start.read fuel text = some part) (enough : fuel < fuel')
    (read : start.read (fuel' + 2) ("\\A(?:".toList ++ text ++ [')']) = some whole) :
    whole.pattern.instructions = .check .textStart :: part.pattern.instructions := by
  obtain ⟨inner, content, ends⟩ := read_grouped (start.push (check .textStart) 0).inner closed enough
  have front : start.read (fuel' + 2) ("\\A(?:".toList ++ text ++ [')']) =
      (start.inside (start.push (check .textStart) 0).inner).read fuel' (text ++ [')']) := rfl
  rw [front, ends] at read
  obtain rfl := Option.some.inj read
  have single : ∃ p, ((start.push (check .textStart) 0).inner.pushGroup inner).content.pattern =
      choice [sequence [check .textStart, p]] ∧ p.instructions = part.pattern.instructions := by
    refine ⟨_, rfl, ?_⟩
    dsimp only
    rw [content]
    split <;> rfl
  obtain ⟨p, shape, same⟩ := single
  rw [shape, choice_singleton (branches_sequence_check _ _), instructions_sequence]
  simp [same]
  rfl

theorem ofText?_eq_some {text : List Char} {p : Pattern} (accepted : ofText? text = some p) :
    ∃ part, start.read (text.length + 1) text = some part ∧ part.pattern = p := by
  obtain ⟨part, read, checked⟩ := Option.bind_eq_some_iff.mp accepted
  obtain ⟨-, -, same⟩ := Option.bind_eq_some_iff.mp checked
  exact ⟨part, read, Option.some.inj same⟩

/-- Behind `\A` and in a group of its own a pattern has its program, with the condition in front. -/
theorem instructions_anchored {text : List Char} {p whole : Pattern} (alone : ofText? text = some p)
    (accepted : ofText? ("\\A(?:".toList ++ text ++ ")".toList) = some whole) :
    whole.instructions = .check .textStart :: p.instructions := by
  obtain ⟨part, read, rfl⟩ := ofText?_eq_some alone
  obtain ⟨part', read', rfl⟩ := ofText?_eq_some accepted
  have size : ("\\A(?:".toList ++ text ++ ")".toList).length + 1 = (text.length + 5) + 2 := by simp
  rw [size] at read'
  exact read_anchored read (by omega) read'

theorem compile_textStart :
    standard.compile "\\A".toList = some (check .textStart).program := by
  have read : ofText? "\\A".toList = some (check .textStart) := by decide +kernel
  exact congrArg (Option.map program) read

/-- The condition is met at the start of the text only. -/
theorem first_eq_zero_of_textStart {text : List Char} {m : Match} (within : m.first ≤ text.length)
    (holds : Boundary.textStart.holds (charBefore text m.first) text[m.first]? = true) :
    m.first = 0 := by
  have none_before : text.take m.first = [] := by
    simpa [Boundary.holds, charBefore] using holds
  rcases List.take_eq_nil_iff.mp none_before with start | empty
  · exact start
  · rw [empty] at within
    exact Nat.le_zero.mp within

/-- The program without instructions goes nowhere. -/
theorem Accepts.last_of_nil {text : List Char} {m : Match} (accepts : Accepts #[] text m) :
    m.last = m.first := by
  obtain ⟨-, address, -, steps⟩ := accepts
  rcases steps.cases_head with same | ⟨middle, step, -⟩
  · exact (Prod.mk.inj same).2.symm
  · cases step with
    | consume reached | check reached | preferred reached | other reached | jump reached =>
      cases reached

theorem accepts_textStart_iff {text : List Char} {m : Match} :
    Accepts (check .textStart).program text m ↔ m = ⟨0, 0⟩ := by
  constructor
  · intro accepts
    obtain ⟨holds, empty⟩ := Accepts.of_check (.nil 0) accepts
    have first := first_eq_zero_of_textStart accepts.1 holds
    have last := empty.last_of_nil
    obtain ⟨_, _⟩ := m
    obtain rfl : _ = 0 := first
    obtain rfl : _ = 0 := last
    rfl
  · rintro rfl
    exact ⟨Nat.zero_le _, 1, rfl, .single (.check rfl rfl)⟩

/-- The standard engine finds matches, and its matches are what is documented. -/
theorem standard_documented : standard.Documented Accepts where
  found := search_accepts
  inside := Accepts.inside
  hasTextStart := Option.isSome_of_eq_some compile_textStart
  textStart compiled accepts := by
    obtain rfl := Option.some.inj (compile_textStart.symm.trans compiled)
    exact accepts_textStart_iff.mp accepts
  textStart_group := by
    intro pattern start alone whole text m compiled alone_compiled whole_compiled accepts
    obtain rfl := Option.some.inj (compile_textStart.symm.trans compiled)
    obtain ⟨p, read, rfl⟩ := Option.map_eq_some_iff.mp alone_compiled
    obtain ⟨q, read', rfl⟩ := Option.map_eq_some_iff.mp whole_compiled
    have shape : q.program = (.check .textStart :: p.instructions).toArray :=
      congrArg List.toArray (instructions_anchored read read')
    rw [shape] at accepts
    obtain ⟨holds, behind⟩ := Accepts.of_check (contained p) accepts
    have first := first_eq_zero_of_textStart accepts.1 holds
    refine ⟨m.first, accepts_textStart_iff.mpr ?_, behind⟩
    rw [first]

end AllParses.Pattern
