import AllParses.Proofs.Pattern.Grouped

/-!
# Reading a pattern step by step

Reading goes through a text item by item and keeps the groups that are open. A step inside a further
group around them all is the same step (`step?_grouped`), so a text that is a pattern by itself is read
to its end in that group as well. The bracket behind the text then closes this group and no other
(`read_grouped`).
-/
namespace AllParses.Pattern

variable {text rest : List Char}

/-- The groups that are open at a place of the text, and the names given so far. -/
structure Groups where
  inner : OpenGroup
  outer : List OpenGroup
  names : List (List Char)

namespace Groups

/-- Puts an item at the end of the innermost group. -/
def push (g : Groups) (p : Pattern) (depth : Nat) : Groups :=
  { g with inner := g.inner.push p depth }

/-- Repeats the last item, lazily if a mark follows. -/
def repeatLast? (g : Groups) (min : Nat) (max : Option Nat) (text : List Char) :
    Option (Groups × List Char) :=
  let (lazily, rest) := readLazyMark text
  (g.inner.repeatLast min max lazily).map fun inner => ({ g with inner := inner }, rest)

/-- Opens a group, or changes the flags of the innermost one. -/
def enter? (g : Groups) (text : List Char) : Option (Groups × List Char) := do
  match ← readOpening g.inner.flags text with
  | (.settings flags, rest) => return ({ g with inner := g.inner.setFlags flags }, rest)
  | (.group numbered flags name, rest) =>
    guard (name.all fun name => !g.names.contains name)
    return (⟨{ numbered := numbered, flags := flags }, g.inner :: g.outer,
      name.toList ++ g.names⟩, rest)

/-- Closes the innermost group. -/
def leave? (g : Groups) (text : List Char) : Option (Groups × List Char) :=
  match g.outer with
  | [] => none
  | around :: outer => some (⟨around.pushGroup g.inner, outer, g.names⟩, text)

/-- Reads one item, which begins with `c`. -/
def step? (fuel : Nat) (g : Groups) (c : Char) (text : List Char) : Option (Groups × List Char) :=
  let flags := g.inner.flags
  match c with
  | '(' => g.enter? text
  | ')' => g.leave? text
  | '|' => some ({ g with inner := g.inner.nextBranch }, text)
  | '*' => g.repeatLast? 0 none text
  | '+' => g.repeatLast? 1 none text
  | '?' => g.repeatLast? 0 (some 1) text
  | '\x7b' => (readBounds text).bind fun ((min, max), rest) => g.repeatLast? min max rest
  | '[' => (readClass flags.ignoreCase fuel text).map fun ((s, depth), rest) =>
      (g.push (ofSet s) depth, rest)
  | '.' => some (g.push (dot flags) 0, text)
  | '^' => some (g.push (.check (if flags.multiLine then .lineStart else .textStart)) 0, text)
  | '$' => some (g.push (.check (if flags.multiLine then .lineEnd else .textEnd)) 0, text)
  | '\\' => (readEscape text).map fun (e, rest) => (g.push (e.pattern flags) 0, rest)
  | c => some (g.push (character flags c) 0, text)

/-- Reads to the end of the text. -/
def read (fuel : Nat) (g : Groups) (text : List Char) : Option Part :=
  readGroups fuel g.inner g.outer g.names text

theorem read_nil (fuel : Nat) (g : Groups) :
    g.read (fuel + 1) [] = if g.outer.isEmpty then some g.inner.content else none := rfl

/-- Reading goes step by step. -/
theorem read_cons (fuel : Nat) (g : Groups) (c : Char) (text : List Char) :
    g.read (fuel + 1) (c :: text) =
      (g.step? fuel c text).bind fun next => next.1.read fuel next.2 := by
  obtain ⟨inner, outer, names⟩ := g
  change readGroups (fuel + 1) inner outer names (c :: text) = _
  unfold readGroups step?
  dsimp only
  split
  case h_1 =>
    simp only [enter?]
    cases readOpening inner.flags text with
    | none => rfl
    | some opening =>
      obtain ⟨opening, rest⟩ := opening
      cases opening with
      | settings flags => rfl
      | group numbered flags name =>
        simp only [Option.bind_eq_bind, Option.bind_some, Option.bind_assoc, List.contains_eq_mem,
          ← decide_not]
        rfl
  case h_2 => cases outer <;> rfl
  case h_3 | h_9 | h_10 | h_11 => rfl
  case h_4 | h_5 | h_6 =>
    simp only [repeatLast?, Option.bind_map]
    rfl
  case h_7 =>
    simp only [repeatLast?, Option.bind_assoc, Option.bind_map]
    rfl
  case h_8 | h_12 =>
    simp only [Option.bind_map]
    rfl
  case h_13 =>
    simp only [*, Option.bind_some]
    rfl

/-- The groups inside one more group. -/
def inside (g : Groups) (around : OpenGroup) : Groups :=
  { g with outer := g.outer ++ [around] }

variable {g next : Groups} {fuel fuel' : Nat} {c : Char}

theorem repeatLast?_grouped {min : Nat} {max : Option Nat} (around : OpenGroup)
    (read : g.repeatLast? min max text = some (next, rest)) :
    (g.inside around).repeatLast? min max (text ++ [')']) =
      some (next.inside around, rest ++ [')']) := by
  have mark := readLazyMark_grouped text
  unfold repeatLast? at read ⊢
  rw [mark]
  generalize readLazyMark text = marked at read ⊢
  obtain ⟨inner, known, same⟩ := Option.map_eq_some_iff.mp read
  cases same
  simp only [inside, known, Option.map_some]

theorem enter?_grouped (around : OpenGroup) (read : g.enter? text = some (next, rest)) :
    (g.inside around).enter? (text ++ [')']) = some (next.inside around, rest ++ [')']) := by
  obtain ⟨⟨opening, behind⟩, opens, read⟩ := Option.bind_eq_some_iff.mp read
  have opens' := readOpening_grouped _ _ _ _ opens
  cases opening with
  | settings flags =>
    cases read
    rw [enter?, inside, opens']
    rfl
  | group numbered flags name =>
    simp only [Option.bind_eq_bind, Option.bind_eq_some_iff, Option.guard_eq_some'] at read
    obtain ⟨-, unused, same⟩ := read
    cases same
    rw [enter?, inside, opens']
    simp only [Option.bind_eq_bind, Option.bind_some, guard, if_pos unused]
    rfl

theorem leave?_grouped (around : OpenGroup) (read : g.leave? text = some (next, rest)) :
    (g.inside around).leave? (text ++ [')']) = some (next.inside around, rest ++ [')']) := by
  obtain ⟨inner, outer, names⟩ := g
  cases outer with
  | nil => cases read
  | cons group outer =>
    cases read
    rfl

/-- A step inside one more group is the same step. -/
theorem step?_grouped (around : OpenGroup) (read : g.step? fuel c text = some (next, rest))
    (enough : fuel ≤ fuel') :
    (g.inside around).step? fuel' c (text ++ [')']) =
      some (next.inside around, rest ++ [')']) := by
  unfold step? at read ⊢
  dsimp only at read ⊢
  split at read
  case h_1 => exact enter?_grouped around read
  case h_2 => exact leave?_grouped around read
  case h_3 | h_9 | h_10 | h_11 =>
    cases read
    rfl
  case h_4 | h_5 | h_6 => exact repeatLast?_grouped around read
  case h_7 =>
    obtain ⟨⟨⟨min, max⟩, behind⟩, bounds, read⟩ := Option.bind_eq_some_iff.mp read
    simp only [readBounds_grouped _ _ _ bounds, Option.bind_some]
    exact repeatLast?_grouped around read
  case h_8 =>
    obtain ⟨⟨⟨s, depth⟩, behind⟩, known, same⟩ := Option.map_eq_some_iff.mp read
    cases same
    simp only [inside, readClass_grouped known enough, Option.map_some]
    rfl
  case h_12 =>
    obtain ⟨⟨e, behind⟩, known, same⟩ := Option.map_eq_some_iff.mp read
    cases same
    simp only [readEscape_grouped _ _ _ known, Option.map_some]
    rfl
  case h_13 =>
    cases read
    rfl

/-- A text that is read to its end is read alike in a group, which is closed by the bracket behind
it. The group around it then gets what has been read. -/
theorem read_grouped (around : OpenGroup) {part : Part} (read : g.read fuel text = some part)
    (enough : fuel < fuel') :
    ∃ closed : OpenGroup, closed.content = part ∧
      (g.inside around).read fuel' (text ++ [')']) = some (around.pushGroup closed).content := by
  induction fuel generalizing fuel' g text with
  | zero => cases read
  | succ fuel ih =>
    obtain ⟨fuel', rfl⟩ :=
      Nat.exists_eq_add_one_of_ne_zero (Nat.ne_of_gt (Nat.zero_lt_of_lt enough))
    have enough' := Nat.lt_of_succ_lt_succ enough
    cases text with
    | nil =>
      obtain ⟨fuel', rfl⟩ :=
        Nat.exists_eq_add_one_of_ne_zero (Nat.ne_of_gt (Nat.zero_lt_of_lt enough'))
      rw [read_nil, Option.ite_none_right_eq_some, Option.some.injEq] at read
      obtain ⟨innermost, rfl⟩ := read
      obtain ⟨inner, outer, names⟩ := g
      obtain rfl := List.isEmpty_iff.mp innermost
      exact ⟨inner, rfl, rfl⟩
    | cons c text =>
      rw [read_cons] at read
      obtain ⟨⟨next, behind⟩, step, later⟩ := Option.bind_eq_some_iff.mp read
      obtain ⟨closed, content, ends⟩ := ih later enough'
      refine ⟨closed, content, ?_⟩
      rw [List.cons_append, read_cons, step?_grouped around step (Nat.le_of_lt enough')]
      exact ends

end Groups

end AllParses.Pattern
