import AllParses.Pattern.ClassReader
import AllParses.Pattern.Normal
import AllParses.Pattern.Size

/-!
# Reading patterns

A pattern text is read from left to right.  Groups that are open are kept on a stack, so reading
takes one step for each item of the text.

A text is refused when its groups, repetitions, classes, sequences and choices nest too deeply, or
when its pattern takes too much room.
-/

namespace AllParses.Pattern

/-- Settings that a pattern text can change for the rest of the group it is in. -/
structure Flags where
  /-- Letters match in upper and lower case. -/
  ignoreCase : Bool := false
  /-- The signs `^` and `$` match at the ends of lines. -/
  multiLine : Bool := false
  /-- The sign `.` matches the end of a line too. -/
  dotAll : Bool := false
  /-- Repetitions prefer fewer, and those marked with `?` more. -/
  swapGreed : Bool := false

/-- Sets the flag that a letter stands for. -/
def Flags.set? (f : Flags) (letter : Char) (on : Bool) : Option Flags :=
  match letter with
  | 'i' => some { f with ignoreCase := on }
  | 'm' => some { f with multiLine := on }
  | 's' => some { f with dotAll := on }
  | 'U' => some { f with swapGreed := on }
  | 'u' => if on then some f else none
  | _ => none

/-- A part of a pattern text. -/
structure Part where
  pattern : Pattern
  /-- How deep the text of the part nests. -/
  depth : Nat

namespace Part

/-- Several parts in one. -/
def combine (op : List Pattern → Pattern) (parts : List Part) : Part where
  pattern := op (parts.map Part.pattern)
  depth :=
    let deepest := parts.foldl (fun n part => Nat.max n part.depth) 0
    if parts.length ≤ 1 then deepest else deepest + 1

end Part

/-- A group that has been opened and not yet closed. -/
structure OpenGroup where
  /-- Whether the group is more than brackets around its content. -/
  numbered : Bool
  flags : Flags
  /-- The finished alternatives, the last one first. -/
  branches : List Part := []
  /-- The items of the alternative that is being read, the last one first. -/
  items : List Part := []
  /-- Whether the text just read may be repeated. -/
  repeatable : Bool := false

namespace OpenGroup

/-- Puts an item at the end. -/
def push (g : OpenGroup) (p : Pattern) (depth : Nat) : OpenGroup :=
  { g with items := ⟨p, depth⟩ :: g.items, repeatable := true }

/-- Changes the flags.  This counts as an item, though it cannot be repeated. -/
def setFlags (g : OpenGroup) (flags : Flags) : OpenGroup :=
  { g.push .empty 0 with flags := flags, repeatable := false }

/-- Ends one alternative and begins the next. -/
def nextBranch (g : OpenGroup) : OpenGroup :=
  { g with
    branches := .combine sequence g.items.reverse :: g.branches
    items := []
    repeatable := false }

/-- What the group contains. -/
def content (g : OpenGroup) : Part :=
  .combine choice g.nextBranch.branches.reverse

/-- Puts a group that has been closed at the end. -/
def pushGroup (g inner : OpenGroup) : OpenGroup :=
  let content := inner.content
  let p := if inner.numbered then .group content.pattern else content.pattern
  g.push p (content.depth + 1)

/-- Repeats the last item; `lazily` when the repetition is marked with `?`. -/
def repeatLast (g : OpenGroup) (min : Nat) (max : Option Nat) (lazily : Bool) :
    Option OpenGroup :=
  match g.repeatable, g.items with
  | true, item :: items =>
    let p := repetition item.pattern min max (lazily == g.flags.swapGreed)
    some { g with items := ⟨p, item.depth + 1⟩ :: items }
  | _, _ => none

end OpenGroup

/-- What a round bracket opens. -/
inductive Opening where
  /-- A group with its flags: whether it is numbered, and the name it is given. -/
  | group (numbered : Bool) (flags : Flags) (name : Option (List Char))
  /-- New flags for the rest of the group around. -/
  | settings (flags : Flags)

/-- Reads flags up to `:` or `)`.  `seen` holds the letters so far, `on` is false behind the minus
sign, and `fresh` says that the sign has just been read. -/
def readFlags : List Char → Flags → (seen : List Char) → (on fresh : Bool) →
    Option (Opening × List Char)
  | [], _, _, _, _ => none
  | ':' :: rest, flags, _, _, fresh => if fresh then none else some (.group false flags none, rest)
  | ')' :: rest, flags, seen, _, fresh =>
    if fresh || seen.isEmpty then none else some (.settings flags, rest)
  | '-' :: rest, flags, seen, on, _ => if on then readFlags rest flags seen false true else none
  | c :: rest, flags, seen, on, _ => do
    guard (c ∉ seen)
    readFlags rest (← flags.set? c on) (c :: seen) on false

/-- Whether a group may have this name. -/
def isGroupName (name : List Char) : Bool :=
  let isLetter (c : Char) : Bool := c = '_' || Unicode.isAlphabetic c
  match name with
  | [] => false
  | c :: cs =>
    isLetter c && cs.all fun c => isLetter c || Unicode.isNumeric c || c ∈ ['.', '[', ']']

/-- Reads the name of a group up to `>`. -/
def readGroupName (flags : Flags) (text : List Char) : Option (Opening × List Char) :=
  let name := text.takeWhile (· != '>')
  match text.drop name.length with
  | '>' :: rest => if isGroupName name then some (.group true flags (some name), rest) else none
  | _ => none

/-- What a round bracket opens, from behind it.  Looking ahead and behind is not supported. -/
def readOpening (flags : Flags) : List Char → Option (Opening × List Char)
  | '?' :: 'P' :: '<' :: rest => readGroupName flags rest
  | '?' :: '<' :: '=' :: _ => none
  | '?' :: '<' :: '!' :: _ => none
  | '?' :: '<' :: rest => readGroupName flags rest
  | '?' :: rest => readFlags rest flags [] true false
  | rest => some (.group true flags none, rest)

/-- A decimal number, with white space around it, that fits 32 bits. -/
def readCount (text : List Char) : Option (Nat × List Char) := do
  let text := text.dropWhile Unicode.isWhiteSpace
  let digits := text.takeWhile Char.isDigit
  guard (!digits.isEmpty)
  let n : Nat := digits.foldl (fun n c => 10 * n + (c.toNat - 48)) 0
  guard (n < 0x100000000)
  return (n, (text.drop digits.length).dropWhile Unicode.isWhiteSpace)

/-- The bounds of a counted repetition, from behind the opening brace. -/
def readBounds (text : List Char) : Option ((Nat × Option Nat) × List Char) := do
  let (min, rest) ← readCount text
  match rest with
  | '\x7d' :: rest => return ((min, some min), rest)
  | ',' :: '\x7d' :: rest => return ((min, none), rest)
  | ',' :: rest =>
    let (max, rest) ← readCount rest
    guard (min ≤ max)
    match rest with
    | '\x7d' :: rest => return ((min, some max), rest)
    | _ => none
  | _ => none

/-- The mark of a repetition that prefers fewer. -/
def readLazyMark : List Char → Bool × List Char
  | '?' :: rest => (true, rest)
  | rest => (false, rest)

/-- The pattern of one character. -/
def character (flags : Flags) (c : Char) : Pattern :=
  ofSet (if flags.ignoreCase then .anyCase (.single c) else .single c)

/-- The pattern of an escape that stands by itself. -/
def Escaped.pattern (flags : Flags) : Escaped → Pattern
  | .literal c => Pattern.character flags c
  | .set s => ofSet s
  | .check b => .check b

/-- The pattern of `.`. -/
def dot (flags : Flags) : Pattern :=
  ofSet (.compl (if flags.dotAll then .empty else .single '\n'))

/-- Goes on reading the innermost of the open groups, to the end of the text.  `names` are the
names of groups so far; each may be given once. -/
def readGroups : (fuel : Nat) → OpenGroup → (outer : List OpenGroup) → (names : List (List Char)) →
    List Char → Option Part
  | 0, _, _, _, _ => none
  | fuel + 1, inner, outer, names, text =>
    let flags := inner.flags
    let again (min : Nat) (max : Option Nat) (rest : List Char) : Option Part := do
      let (lazily, rest) := readLazyMark rest
      readGroups fuel (← inner.repeatLast min max lazily) outer names rest
    let item (p : Pattern) (depth : Nat) (rest : List Char) : Option Part :=
      readGroups fuel (inner.push p depth) outer names rest
    match text with
    | [] => if outer.isEmpty then some inner.content else none
    | c :: rest =>
      match c with
      | '(' => do
        match ← readOpening flags rest with
        | (.settings flags, rest) => readGroups fuel (inner.setFlags flags) outer names rest
        | (.group numbered flags name, rest) =>
          guard (name.all (· ∉ names))
          let opened : OpenGroup := { numbered := numbered, flags := flags }
          readGroups fuel opened (inner :: outer) (name.toList ++ names) rest
      | ')' =>
        match outer with
        | [] => none
        | around :: outer => readGroups fuel (around.pushGroup inner) outer names rest
      | '|' => readGroups fuel inner.nextBranch outer names rest
      | '*' => again 0 none rest
      | '+' => again 1 none rest
      | '?' => again 0 (some 1) rest
      | '\x7b' => do
        let ((min, max), rest) ← readBounds rest
        again min max rest
      | '[' => do
        let ((s, depth), rest) ← readClass flags.ignoreCase fuel rest
        item (ofSet s) depth rest
      | '.' => item (dot flags) 0 rest
      | '^' => item (.check (if flags.multiLine then .lineStart else .textStart)) 0 rest
      | '$' => item (.check (if flags.multiLine then .lineEnd else .textEnd)) 0 rest
      | '\\' => do
        let (e, rest) ← readEscape rest
        item (e.pattern flags) 0 rest
      | c => item (character flags c) 0 rest

/-- The greatest depth that a pattern text may have. -/
def maxDepth : Nat := 250

/-- The pattern that a text denotes, if it denotes one that is neither too deep nor too large. -/
def ofText? (text : List Char) : Option Pattern := do
  let part ← readGroups (text.length + 1) { numbered := false, flags := {} } [] [] text
  guard (part.depth ≤ maxDepth && part.pattern.fits)
  return part.pattern

end AllParses.Pattern
