import AllParses.Grammar.Reading
import AllParses.Proofs.Grammar.Declaration

/-!
# References

The check of a grammar walks through its list of rules, while an expansion looks names up in its map.
For a consistent grammar they are about the same rules, so a grammar that passes is `Closed`: every
nonterminal that is mentioned has a rule. Of a grammar that does not pass the check reports the first
mention that is in the way (`FirstDangling`).
-/
namespace AllParses

namespace Grammar

variable {g : Grammar} {rule name : String} {alternatives : List Alternative}

/-- Every nonterminal that a rule mentions has a rule. -/
def Closed (g : Grammar) : Prop :=
  ∀ rule alternatives, g.alternatives? rule = some alternatives →
    ∀ symbols ∈ alternatives, ∀ name, .nonterminal name ∈ symbols → g.contains name = true

theorem mem_references_iff :
    name ∈ references alternatives ↔ ∃ symbols ∈ alternatives, .nonterminal name ∈ symbols := by
  rw [references, List.mem_filterMap]
  constructor
  · rintro ⟨s, member, named⟩
    obtain ⟨symbols, among, inside⟩ := List.mem_flatten.mp member
    cases s with
    | terminal => cases named
    | nonterminal other =>
      obtain rfl : other = name := Option.some.inj named
      exact ⟨symbols, among, inside⟩
  · rintro ⟨symbols, among, inside⟩
    exact ⟨.nonterminal name, List.mem_flatten.mpr ⟨symbols, among, inside⟩, rfl⟩

/-- The check finds every mention of a nonterminal without a rule, and nothing else. -/
theorem Consistent.mem_danglingReferences_iff (consistent : g.Consistent) :
    (rule, name) ∈ g.danglingReferences ↔ ∃ alternatives, g.alternatives? rule = some alternatives ∧
      name ∈ references alternatives ∧ g.contains name = false := by
  rw [danglingReferences, List.mem_eraseDups, List.mem_flatMap]
  constructor
  · rintro ⟨⟨owner, alternatives⟩, member, mentioned⟩
    obtain ⟨other, missing, same⟩ := List.mem_map.mp mentioned
    obtain ⟨rfl, rfl⟩ := Prod.mk.inj same
    obtain ⟨inside, undefined⟩ := List.mem_filter.mp missing
    exact ⟨alternatives, consistent.mem_rules_iff.mp member, inside, by simpa using undefined⟩
  · rintro ⟨alternatives, found, inside, undefined⟩
    refine ⟨(rule, alternatives), consistent.mem_rules_iff.mpr found, ?_⟩
    exact List.mem_map_of_mem (List.mem_filter.mpr ⟨inside, by simp [undefined]⟩)

theorem Consistent.closed (consistent : g.Consistent) (none : g.danglingReferences = []) :
    g.Closed := by
  intro rule alternatives found symbols among name inside
  by_contra undefined
  have mentioned := mem_references_iff.mpr ⟨symbols, among, inside⟩
  have dangling := consistent.mem_danglingReferences_iff.mpr
    ⟨alternatives, found, mentioned, Bool.eq_false_iff.mpr undefined⟩
  rw [none] at dangling
  cases dangling

theorem Consistent.closed_iff (consistent : g.Consistent) :
    g.Closed ↔ g.danglingReferences = [] := by
  refine ⟨fun closed => ?_, consistent.closed⟩
  rw [List.eq_nil_iff_forall_not_mem]
  rintro ⟨rule, name⟩ dangling
  obtain ⟨alternatives, found, mentioned, undefined⟩ :=
    consistent.mem_danglingReferences_iff.mp dangling
  obtain ⟨symbols, among, inside⟩ := mem_references_iff.mp mentioned
  rw [closed rule alternatives found symbols among name inside] at undefined
  cases undefined

/-! ## The mention that is reported -/

/-- Every nonterminal among the symbols has a rule. -/
def Defines (g : Grammar) (symbols : List Symbol) : Prop :=
  ∀ name, .nonterminal name ∈ symbols → g.contains name = true

/-- Of all nonterminals without a rule `name`, where it stands in `rule`, is mentioned first: the
rules are looked through in the order of declaration, and the symbols of a rule in reading order. -/
structure FirstDangling (g : Grammar) (rule name : String) : Prop where
  undefined : g.contains name = false
  first : ∃ before alternatives after earlier later,
    g.rules = before ++ (rule, alternatives) :: after ∧
    alternatives.flatten = earlier ++ .nonterminal name :: later ∧
    (∀ r ∈ before, g.Defines r.2.flatten) ∧ g.Defines earlier

theorem find?_references_eq_none_iff :
    (references alternatives).find? (fun other => !g.contains other) = none ↔
      g.Defines alternatives.flatten := by
  rw [List.find?_eq_none]
  constructor
  · intro all other inside
    obtain ⟨symbols, among, inside⟩ := List.mem_flatten.mp inside
    simpa using all other (mem_references_iff.mpr ⟨symbols, among, inside⟩)
  · intro defines other mentioned
    obtain ⟨symbols, among, inside⟩ := mem_references_iff.mp mentioned
    simp [defines other (List.mem_flatten.mpr ⟨symbols, among, inside⟩)]

theorem find?_references_eq_some_iff :
    (references alternatives).find? (fun other => !g.contains other) = some name ↔
      g.contains name = false ∧ ∃ earlier later,
        alternatives.flatten = earlier ++ .nonterminal name :: later ∧ g.Defines earlier := by
  rw [references, List.find?_filterMap]
  constructor
  · intro found
    obtain ⟨s, first, named⟩ := Option.bind_eq_some_iff.mp found
    obtain ⟨undefined, earlier, later, split, passed⟩ := List.find?_eq_some_iff_append.mp first
    cases s with
    | terminal => cases named
    | nonterminal other =>
      obtain rfl : other = name := Option.some.inj named
      refine ⟨by simpa using undefined, earlier, later, split, fun other inside => ?_⟩
      simpa using passed _ inside
  · rintro ⟨undefined, earlier, later, split, defines⟩
    refine Option.bind_eq_some_iff.mpr ⟨.nonterminal name, ?_, rfl⟩
    refine List.find?_eq_some_iff_append.mpr ⟨by simp [undefined], earlier, later, split, ?_⟩
    intro s inside
    cases s with
    | terminal => rfl
    | nonterminal other => simp [defines other inside]

/-- Leaving out repeated mentions does not touch the first one. -/
theorem head?_danglingReferences (g : Grammar) :
    g.danglingReferences.head? = g.rules.findSome? fun r =>
      ((references r.2).find? fun other => !g.contains other).map fun other => (r.1, other) := by
  have head_kept : ∀ mentions : List (String × String),
      mentions.eraseDups.head? = mentions.head? := by
    intro mentions
    cases mentions with
    | nil => rfl
    | cons mention others => rw [List.eraseDups_cons, List.head?_cons, List.head?_cons]
  rw [danglingReferences, head_kept, List.head?_flatMap]
  simp only [List.head?_map, List.head?_filter]

theorem head?_danglingReferences_eq_some_iff :
    g.danglingReferences.head? = some (rule, name) ↔ g.FirstDangling rule name := by
  rw [head?_danglingReferences, List.findSome?_eq_some_iff]
  constructor
  · rintro ⟨before, ⟨owner, alternatives⟩, after, split, found, passed⟩
    obtain ⟨other, first, same⟩ := Option.map_eq_some_iff.mp found
    obtain ⟨rfl, rfl⟩ := Prod.mk.inj same
    obtain ⟨undefined, earlier, later, reading, defines⟩ := find?_references_eq_some_iff.mp first
    refine ⟨undefined, before, alternatives, after, earlier, later, split, reading, ?_, defines⟩
    intro r member
    exact find?_references_eq_none_iff.mp (Option.map_eq_none_iff.mp (passed r member))
  · rintro ⟨undefined, before, alternatives, after, earlier, later, split, reading, passed, defines⟩
    refine ⟨before, (rule, alternatives), after, split, ?_, fun r member => ?_⟩
    · rw [find?_references_eq_some_iff.mpr ⟨undefined, earlier, later, reading, defines⟩]
      rfl
    · rw [find?_references_eq_none_iff.mpr (passed r member)]
      rfl

end Grammar

namespace Lexicon

variable {l : Lexicon} {g h : Grammar}

theorem checkReferences_eq_ok_iff :
    checkReferences g = .ok h ↔ g = h ∧ g.danglingReferences = [] := by
  unfold checkReferences
  split <;> simp_all

/-- The check reports the first mention of a nonterminal without a rule. -/
theorem checkReferences_of_firstDangling {rule name : String} (first : g.FirstDangling rule name) :
    checkReferences g = .error (.undefinedNonterminal name (some rule)) := by
  obtain ⟨others, dangling⟩ :=
    List.head?_eq_some_iff.mp (Grammar.head?_danglingReferences_eq_some_iff.mpr first)
  rw [checkReferences, dangling]

end Lexicon

end AllParses
