import AllParses.Proofs.Grammar.Order
import AllParses.Proofs.Grammar.References

/-!
# What the check of a grammar lists

The check walks through a grammar and lists the nonterminals without a rule, each with the rule that
mentions it. The list is exact, and it is in the order of the first mentions
(`danglingReferences_in_reading_order`).

Every symbol of a grammar has a `Place`. `placedReferences` are all nonterminals with their places, in
ascending order, and the list of the check is what is left of them without the places, without the
names that have a rule and without repetition. So the order is a fact about any list with ascending
keys (`pairwise_eraseDups_map_snd`). A further rule comes last, and what it defines is filtered out
of the mentions that were there before.
-/
namespace AllParses

/-! ## Numbered lists -/

section

variable {α β : Type}

theorem pairwise_zipIdx (l : List α) : l.zipIdx.Pairwise fun a b => a.2 < b.2 := by
  rw [← List.pairwise_map, List.zipIdx_map_snd]
  exact List.pairwise_lt_range'

theorem flatMap_zipIdx_fst (l : List α) (f : α → List β) :
    (l.zipIdx.flatMap fun entry => f entry.1) = l.flatMap f := by
  conv_rhs => rw [← List.zipIdx_map_fst 0 l, List.flatMap_map]

theorem filterMap_zipIdx_fst (l : List α) (f : α → Option β) :
    (l.zipIdx.filterMap fun entry => f entry.1) = l.filterMap f := by
  conv_rhs => rw [← List.zipIdx_map_fst 0 l, List.filterMap_map]
  rfl

/-- In a list with ascending keys the values without repetition are in the order of their first
keys. -/
theorem pairwise_eraseDups_map_snd {κ : Type} [BEq α] [LawfulBEq α] {R : κ → κ → Prop}
    {l : List (κ × α)} (ascending : l.Pairwise fun a b => R a.1 b.1) :
    (l.map Prod.snd).eraseDups.Pairwise fun a b =>
      ∃ key, (key, a) ∈ l ∧ ∀ other, (other, b) ∈ l → R key other := by
  induction l using List.reverseRecOn with
  | nil => exact .nil
  | append_singleton l entry ih =>
    obtain ⟨before, -, below⟩ := List.pairwise_append.mp ascending
    have last : ∀ e ∈ l, R e.1 entry.1 := fun e member =>
      below e member entry (List.mem_singleton_self _)
    have earlier : (l.map Prod.snd).eraseDups.Pairwise fun a b =>
        ∃ key, (key, a) ∈ l ++ [entry] ∧ ∀ other, (other, b) ∈ l ++ [entry] → R key other := by
      refine (ih before).imp ?_
      rintro a b ⟨key, first, all⟩
      refine ⟨key, List.mem_append_left _ first, fun other member => ?_⟩
      obtain inside | same := List.mem_append.mp member
      · exact all other inside
      · obtain rfl := List.mem_singleton.mp same
        exact last _ first
    rw [List.map_append, List.map_singleton, eraseDups_concat]
    split
    case isTrue => exact earlier
    case isFalse fresh =>
      refine List.pairwise_append.mpr ⟨earlier, List.pairwise_singleton _ _, fun a first b same => ?_⟩
      obtain rfl := List.mem_singleton.mp same
      obtain ⟨⟨key, value⟩, member, rfl⟩ := List.mem_map.mp (List.mem_eraseDups.mp first)
      refine ⟨key, List.mem_append_left _ member, fun other found => ?_⟩
      obtain inside | same := List.mem_append.mp found
      · exact absurd (List.mem_map_of_mem inside) fresh
      · obtain rfl : other = entry.1 := congrArg Prod.fst (List.mem_singleton.mp same)
        exact last _ member

end

namespace Grammar

/-! ## Places -/

/-- Where a symbol stands in a grammar: in which rule, in which of its alternatives, and where in
the alternative. -/
structure Place where
  rule : Nat
  alternative : Nat
  position : Nat
  deriving DecidableEq

/-- Rules are read in their order, of a rule its alternatives, and an alternative from the left. -/
def Place.Before (p q : Place) : Prop :=
  p.rule < q.rule ∨ p.rule = q.rule ∧
    (p.alternative < q.alternative ∨ p.alternative = q.alternative ∧ p.position < q.position)

/-- At this place the rule of `pair.1` has the nonterminal `pair.2`. -/
def MentionsAt (g : Grammar) (pair : String × String) (place : Place) : Prop :=
  ∃ alternatives symbols, g.rules[place.rule]? = some (pair.1, alternatives) ∧
    alternatives[place.alternative]? = some symbols ∧
    symbols[place.position]? = some (.nonterminal pair.2)

/-- A mention of `a` stands before every mention of `b`. -/
def MentionedBefore (g : Grammar) (a b : String × String) : Prop :=
  ∃ place, g.MentionsAt a place ∧ ∀ other, g.MentionsAt b other → place.Before other

/-- The name of a nonterminal. -/
def Symbol.reference? : Symbol → Option String
  | .terminal _ => none
  | .nonterminal name => some name

theorem Symbol.reference?_eq_some_iff {s : Symbol} {name : String} :
    s.reference? = some name ↔ s = .nonterminal name := by
  cases s <;> simp [reference?]

/-- The nonterminals of one alternative with their places. -/
def placedReferencesIn (owner : String) (rule alternative : Nat) (symbols : Alternative) :
    List (Place × String × String) :=
  symbols.zipIdx.filterMap fun entry =>
    entry.1.reference?.map fun name => (⟨rule, alternative, entry.2⟩, owner, name)

/-- The nonterminals of one rule with their places. -/
def placedReferencesOf (rule : Rule) (number : Nat) : List (Place × String × String) :=
  rule.2.zipIdx.flatMap fun entry => placedReferencesIn rule.1 number entry.2 entry.1

/-- All nonterminals that are mentioned, each with its place and with the name of the rule. -/
def placedReferences (g : Grammar) : List (Place × String × String) :=
  g.rules.zipIdx.flatMap fun entry => placedReferencesOf entry.1 entry.2

variable {g : Grammar} {name : String} {alternatives : List Alternative}

theorem mem_placedReferencesIn_iff {owner : String} {rule alternative : Nat} {symbols : Alternative}
    {place : Place} {pair : String × String} :
    (place, pair) ∈ placedReferencesIn owner rule alternative symbols ↔
      place.rule = rule ∧ place.alternative = alternative ∧ pair.1 = owner ∧
        symbols[place.position]? = some (.nonterminal pair.2) := by
  rw [placedReferencesIn, List.mem_filterMap]
  constructor
  · rintro ⟨⟨s, position⟩, member, mentioned⟩
    obtain ⟨name, named, same⟩ := Option.map_eq_some_iff.mp mentioned
    obtain ⟨rfl, rfl⟩ := Prod.mk.inj same
    have found := List.mem_zipIdx_iff_getElem?.mp member
    exact ⟨rfl, rfl, rfl, found.trans (congrArg some (Symbol.reference?_eq_some_iff.mp named))⟩
  · rintro ⟨rfl, rfl, rfl, found⟩
    exact ⟨(.nonterminal pair.2, place.position), List.mem_zipIdx_iff_getElem?.mpr found, rfl⟩

theorem mem_placedReferences_iff {place : Place} {pair : String × String} :
    (place, pair) ∈ g.placedReferences ↔ g.MentionsAt pair place := by
  rw [placedReferences, List.mem_flatMap]
  constructor
  · rintro ⟨⟨⟨owner, alternatives⟩, rule⟩, listed, member⟩
    obtain ⟨⟨symbols, alternative⟩, among, inside⟩ := List.mem_flatMap.mp member
    obtain ⟨rfl, rfl, rfl, found⟩ := mem_placedReferencesIn_iff.mp inside
    exact ⟨alternatives, symbols, List.mem_zipIdx_iff_getElem?.mp listed,
      List.mem_zipIdx_iff_getElem?.mp among, found⟩
  · rintro ⟨alternatives, symbols, listed, among, found⟩
    refine ⟨((pair.1, alternatives), place.rule), List.mem_zipIdx_iff_getElem?.mpr listed, ?_⟩
    exact List.mem_flatMap.mpr ⟨(symbols, place.alternative),
      List.mem_zipIdx_iff_getElem?.mpr among, mem_placedReferencesIn_iff.mpr ⟨rfl, rfl, rfl, found⟩⟩

/-- Mentions are listed by their places: within an alternative, then within a rule, then in the
whole grammar. -/
theorem pairwise_placedReferencesIn (owner : String) (rule alternative : Nat) (symbols : Alternative) :
    (placedReferencesIn owner rule alternative symbols).Pairwise fun a b => a.1.Before b.1 := by
  refine List.pairwise_filterMap.mpr ((pairwise_zipIdx symbols).imp fun before a first b second => ?_)
  obtain ⟨name, -, rfl⟩ := Option.map_eq_some_iff.mp first
  obtain ⟨other, -, rfl⟩ := Option.map_eq_some_iff.mp second
  exact .inr ⟨rfl, .inr ⟨rfl, before⟩⟩

theorem pairwise_placedReferencesOf (rule : Rule) (number : Nat) :
    (placedReferencesOf rule number).Pairwise fun a b => a.1.Before b.1 := by
  refine List.pairwise_flatMap.mpr ⟨fun entry _ => pairwise_placedReferencesIn _ _ _ _, ?_⟩
  refine (pairwise_zipIdx rule.2).imp fun before a first b second => ?_
  obtain ⟨sameRule, alternative, -⟩ := mem_placedReferencesIn_iff.mp first
  obtain ⟨otherRule, other, -⟩ := mem_placedReferencesIn_iff.mp second
  exact .inr ⟨sameRule.trans otherRule.symm, .inl (by rwa [alternative, other])⟩

theorem rule_of_mem_placedReferencesOf {rule : Rule} {number : Nat} {mention : Place × String × String}
    (member : mention ∈ placedReferencesOf rule number) : mention.1.rule = number := by
  obtain ⟨entry, -, inside⟩ := List.mem_flatMap.mp member
  exact (mem_placedReferencesIn_iff.mp inside).1

theorem pairwise_placedReferences (g : Grammar) :
    g.placedReferences.Pairwise fun a b => a.1.Before b.1 := by
  refine List.pairwise_flatMap.mpr ⟨fun entry _ => pairwise_placedReferencesOf _ _, ?_⟩
  refine (pairwise_zipIdx g.rules).imp fun before a first b second => .inl ?_
  rwa [rule_of_mem_placedReferencesOf first, rule_of_mem_placedReferencesOf second]

/-! ## The list of the check -/

theorem references_eq_flatMap (alternatives : List Alternative) :
    references alternatives =
      alternatives.flatMap fun symbols => symbols.filterMap Symbol.reference? := by
  rw [references, List.filterMap_flatten, List.flatMap_def]
  rfl

theorem map_snd_placedReferencesIn (owner : String) (rule alternative : Nat)
    (symbols : Alternative) :
    (placedReferencesIn owner rule alternative symbols).map Prod.snd =
      (symbols.filterMap Symbol.reference?).map (Prod.mk owner) := by
  rw [placedReferencesIn, List.map_filterMap, List.map_filterMap]
  simp only [Option.map_map, Function.comp_def]
  exact filterMap_zipIdx_fst symbols fun s => s.reference?.map (Prod.mk owner)

theorem map_snd_placedReferencesOf (rule : Rule) (number : Nat) :
    (placedReferencesOf rule number).map Prod.snd = (references rule.2).map (Prod.mk rule.1) := by
  rw [placedReferencesOf, List.map_flatMap, references_eq_flatMap, List.map_flatMap]
  simp only [map_snd_placedReferencesIn]
  exact flatMap_zipIdx_fst rule.2 fun symbols =>
    (symbols.filterMap Symbol.reference?).map (Prod.mk rule.1)

/-- Without their places the mentions of a rule are its references. -/
theorem map_snd_placedReferences (g : Grammar) :
    g.placedReferences.map Prod.snd =
      g.rules.flatMap fun rule => (references rule.2).map (Prod.mk rule.1) := by
  rw [placedReferences, List.map_flatMap]
  simp only [map_snd_placedReferencesOf]
  exact flatMap_zipIdx_fst g.rules fun rule => (references rule.2).map (Prod.mk rule.1)

/-- The check looks at every mention, keeps those without a rule and of these the first ones. -/
theorem danglingReferences_eq (g : Grammar) :
    g.danglingReferences =
      ((g.placedReferences.map Prod.snd).filter fun pair => !g.contains pair.2).eraseDups := by
  rw [danglingReferences, map_snd_placedReferences, List.filter_flatMap]
  simp only [List.filter_map, Function.comp_def]

/-- The places of the mentions ascend, and of every pair the first one counts. -/
theorem pairwise_danglingReferences (g : Grammar) :
    g.danglingReferences.Pairwise g.MentionedBefore := by
  rw [danglingReferences_eq, eraseDups_filter]
  refine List.Pairwise.filter _ ((pairwise_eraseDups_map_snd (pairwise_placedReferences g)).imp ?_)
  rintro a b ⟨place, first, all⟩
  exact ⟨place, mem_placedReferences_iff.mp first,
    fun other found => all other (mem_placedReferences_iff.mpr found)⟩

/-! ## Grammars that are changed -/

/-- A further rule that mentions no name without a rule takes its own name off the list. -/
theorem Consistent.danglingReferences_addRule (consistent : g.Consistent)
    (fresh : g.contains name = false)
    (defined : ∀ other ∈ references alternatives,
      (g.addRule name alternatives).contains other = true) :
    (g.addRule name alternatives).danglingReferences =
      g.danglingReferences.filter fun pair => pair.2 ≠ name := by
  have complete : ((references alternatives).map (Prod.mk name)).filter
      (fun pair => !(g.addRule name alternatives).contains pair.2) = [] := by
    refine List.filter_eq_nil_iff.mpr fun pair member => ?_
    obtain ⟨other, mentioned, rfl⟩ := List.mem_map.mp member
    simp only [defined other mentioned, Bool.not_true, Bool.false_eq_true, not_false_eq_true]
  have missing : ∀ pair : String × String, (!(g.addRule name alternatives).contains pair.2) =
      (decide (pair.2 ≠ name) && !g.contains pair.2) := by
    intro pair
    rw [contains_addRule, Bool.not_or, decide_not]
  rw [danglingReferences_eq, danglingReferences_eq, ← eraseDups_filter, List.filter_filter,
    map_snd_placedReferences, map_snd_placedReferences, consistent.rules_addRule fresh,
    List.flatMap_append, List.filter_append, List.flatMap_singleton, complete, List.append_nil]
  simp only [missing]

/-- Of the alternatives only the references have an influence. -/
theorem Consistent.danglingReferences_mapRules (consistent : g.Consistent)
    {f : List Alternative → List Alternative}
    (same : ∀ alternatives, references (f alternatives) = references alternatives) :
    (g.mapRules f).danglingReferences = g.danglingReferences := by
  have present : ∀ name, (g.mapRules f).contains name = g.contains name := by
    intro name
    rw [contains, consistent.alternatives?_mapRules, Option.isSome_map, contains]
  rw [danglingReferences_eq, danglingReferences_eq, map_snd_placedReferences,
    map_snd_placedReferences, consistent.rules_mapRules, List.flatMap_map]
  simp only [present, same]

/-- The alternatives without their terminals. -/
def nonterminalsOnly (alternatives : List Alternative) : List Alternative :=
  alternatives.map fun symbols => symbols.filter fun s => !s.isTerminal

theorem references_nonterminalsOnly (alternatives : List Alternative) :
    references (nonterminalsOnly alternatives) = references alternatives := by
  have kept : ∀ s : Symbol, (if !s.isTerminal then s.reference? else none) = s.reference? := by
    intro s
    cases s <;> rfl
  rw [references_eq_flatMap, references_eq_flatMap, nonterminalsOnly, List.flatMap_map]
  simp only [List.filterMap_filter, kept]

/-- For a grammar that is built by the constructors the check lists a rule with a nonterminal exactly
if the rule mentions it and it has no rule. It lists each pair once, in the order of their first
mentions. Terminals do not matter, whatever they are called. Another rule for a missing name, if
all that it mentions has a rule then, takes the pairs with this name off the list and leaves the
others on it in their order. -/
theorem danglingReferences_in_reading_order (g : Grammar) (built : g.Built) :
    (∀ rule name, (rule, name) ∈ g.danglingReferences ↔
      (∃ alternatives, g.alternatives? rule = some alternatives ∧
        ∃ symbols ∈ alternatives, .nonterminal name ∈ symbols) ∧ g.contains name = false) ∧
    g.danglingReferences.Nodup ∧ g.danglingReferences.Pairwise g.MentionedBefore ∧
    (g.mapRules nonterminalsOnly).danglingReferences = g.danglingReferences ∧
    ∀ name alternatives, g.contains name = false →
      (∀ symbols ∈ alternatives, ∀ other, .nonterminal other ∈ symbols →
        (g.addRule name alternatives).contains other = true) →
      (g.addRule name alternatives).danglingReferences =
        g.danglingReferences.filter fun pair => pair.2 ≠ name := by
  have consistent := built.consistent
  refine ⟨fun rule name => ?exact, nodup_eraseDups _, pairwise_danglingReferences g,
    consistent.danglingReferences_mapRules references_nonterminalsOnly,
    fun name alternatives fresh defined => ?added⟩
  case exact =>
    rw [consistent.mem_danglingReferences_iff]
    simp only [mem_references_iff]
    constructor
    · rintro ⟨alternatives, found, mentioned, missing⟩
      exact ⟨⟨alternatives, found, mentioned⟩, missing⟩
    · rintro ⟨⟨alternatives, found, mentioned⟩, missing⟩
      exact ⟨alternatives, found, mentioned, missing⟩
  case added =>
    refine consistent.danglingReferences_addRule fresh fun other mentioned => ?_
    obtain ⟨symbols, among, inside⟩ := mem_references_iff.mp mentioned
    exact defined symbols among other inside

/-- A grammar in which `U` is mentioned by two rules and by one of them twice, and `V` once in
between. There is a terminal that is called like the missing `V`. -/
def unfinished : Grammar :=
  ofRules [("S", [[.terminal "V", .nonterminal "U"], [.nonterminal "V", .nonterminal "U"]]),
    ("T", [[.nonterminal "U", .nonterminal "S"]])]

/-- With a rule for `U`, which may mention itself, only `V` is left. -/
theorem unfinished_danglingReferences :
    unfinished.Built ∧ unfinished.danglingReferences = [("S", "U"), ("S", "V"), ("T", "U")] ∧
    unfinished.MentionedBefore ("S", "U") ("S", "V") ∧
    ("S", "T") ∉ unfinished.danglingReferences ∧
    (unfinished.addRule "U" [[.nonterminal "U", .terminal "V"], []]).danglingReferences =
      [("S", "V")] := by
  have built : unfinished.Built := .ofRules _
  have listed : unfinished.danglingReferences = [("S", "U"), ("S", "V"), ("T", "U")] := by
    decide +kernel
  obtain ⟨exact, -, ordered, -, added⟩ := danglingReferences_in_reading_order unfinished built
  refine ⟨built, listed, ?_, fun member => ?_, ?_⟩
  · rw [listed] at ordered
    exact List.rel_of_pairwise_cons ordered (by simp)
  · have missing := ((exact "S" "T").mp member).2
    have present : unfinished.contains "T" = true := by decide +kernel
    rw [present] at missing
    cases missing
  · have defined : ∀ symbols ∈ ([[.nonterminal "U", .terminal "V"], []] : List Alternative),
        ∀ other, .nonterminal other ∈ symbols →
          (unfinished.addRule "U" [[.nonterminal "U", .terminal "V"], []]).contains other = true := by
      intro symbols among other inside
      have itself : other = "U" := by
        obtain rfl | rfl : symbols = [.nonterminal "U", .terminal "V"] ∨ symbols = [] := by
          simpa using among
        · simpa using inside
        · cases inside
      rw [contains_addRule, itself]
      rfl
    rw [added "U" _ (by decide +kernel) defined, listed]
    decide

end Grammar

end AllParses
