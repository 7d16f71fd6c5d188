import AllParses.Pattern.Escape

/-!
# Reading character classes

A class stands in square brackets.  It lists characters, ranges, escapes, named classes and further
classes in brackets, and may be negated.  `&&`, `--` and `~~` combine what stands on their left
with what stands on their right, from left to right.

With each class goes its depth: how deep brackets, lists of several parts and operations nest.
-/

namespace AllParses.Pattern

/-- The operations between the parts of a class. -/
inductive SetOperation where
  | inter
  | diff
  | symmDiff

/-- A class that has been opened and not yet closed. -/
structure OpenClass where
  negated : Bool
  /-- What has been listed since the last operation, in how many parts, and how deep they are. -/
  listed : CharSet := .empty
  parts : Nat := 0
  partDepth : Nat := 0
  /-- The last operation with all that stands on its left, and how deep that is. -/
  pending : Option (SetOperation × CharSet × Nat) := none

namespace OpenClass

/-- Lists one more set. -/
def add (c : OpenClass) (s : CharSet) (depth : Nat) : OpenClass :=
  { c with
    listed := c.listed.union s
    parts := c.parts + 1
    partDepth := Nat.max c.partDepth depth }

private def upToCase (ignoreCase : Bool) (s : CharSet) : CharSet :=
  if ignoreCase then s.anyCase else s

/-- What the class holds so far, before negation, and how deep that is. -/
def value (ignoreCase : Bool) (c : OpenClass) : CharSet × Nat :=
  let listDepth := if c.parts ≤ 1 then c.partDepth else c.partDepth + 1
  match c.pending with
  | none => (c.listed, listDepth)
  | some (operation, left, leftDepth) =>
    let left := upToCase ignoreCase left
    let right := upToCase ignoreCase c.listed
    let s := match operation with
      | .inter => left.inter right
      | .diff => left.diff right
      | .symmDiff => left.symmDiff right
    (s, Nat.max leftDepth listDepth + 1)

/-- Begins the right side of an operation. -/
def operate (ignoreCase : Bool) (operation : SetOperation) (c : OpenClass) : OpenClass :=
  { negated := c.negated, pending := some (operation, c.value ignoreCase) }

/-- The set that the whole class denotes, and how deep the class is. -/
def close (ignoreCase : Bool) (c : OpenClass) : CharSet × Nat :=
  let (s, depth) := c.value ignoreCase
  let s := upToCase ignoreCase s
  (if c.negated then s.compl else s, depth + 1)

end OpenClass

/-- Opens a class, from behind its bracket: the sign of negation, then hyphens, and without these
one closing bracket, stand for themselves. -/
def openClass (text : List Char) : Option (OpenClass × List Char) := do
  let (negated, text) := match text with
    | '^' :: text => (true, text)
    | text => (false, text)
  let hyphens := text.takeWhile (· = '-')
  let text := text.drop hyphens.length
  guard (!text.isEmpty)
  let opened : OpenClass := { negated := negated }
  let c := hyphens.foldl (fun c hyphen => c.add (.single hyphen) 0) opened
  match hyphens, text with
  | [], ']' :: text =>
    guard (!text.isEmpty)
    return (c.add (.single ']') 0, text)
  | _, text => return (c, text)

/-- A class given by name, such as `[:alpha:]` or `[:^alpha:]`, from behind its first bracket. -/
def readNamedClass (ignoreCase : Bool) (text : List Char) : Option (CharSet × List Char) := do
  match text with
  | ':' :: text =>
    let (negated, text) := match text with
      | '^' :: text => (true, text)
      | text => (false, text)
    let name := text.takeWhile (· != ':')
    match text.drop name.length with
    | ':' :: ']' :: rest =>
      let s ← CharSet.named? (String.ofList name)
      let s := if ignoreCase then s.anyCase else s
      return (if negated then s.compl else s, rest)
    | _ => none
  | _ => none

/-- One character or escape in a class. -/
def readClassItem : List Char → Option (Escaped × List Char)
  | [] => none
  | '\\' :: rest => readEscape rest
  | c :: rest => some (.literal c, rest)

/-- The set that an item stands for by itself. -/
def Escaped.set? : Escaped → Option CharSet
  | .literal c => some (.single c)
  | .set s => some s
  | .check _ => none

/-- An item or a range in a class.  A hyphen before the closing bracket or before another hyphen
makes no range. -/
def readClassRange (text : List Char) : Option (CharSet × List Char) := do
  let (first, rest) ← readClassItem text
  match rest with
  | [] => none
  | '-' :: ']' :: _ => return (← first.set?, rest)
  | '-' :: '-' :: _ => return (← first.set?, rest)
  | '-' :: rest =>
    let (last, rest) ← readClassItem rest
    match first, last with
    | .literal a, .literal b => if a ≤ b then return (.range a b, rest) else none
    | _, _ => none
  | rest => return (← first.set?, rest)

/-- Goes on reading the innermost of the open classes, to the end of the outermost.  Gives its set
and its depth. -/
def readClassBody (ignoreCase : Bool) :
    (fuel : Nat) → OpenClass → (outer : List OpenClass) → List Char →
      Option ((CharSet × Nat) × List Char)
  | 0, _, _, _ => none
  | fuel + 1, inner, outer, text =>
    match text with
    | [] => none
    | '[' :: text =>
      match readNamedClass ignoreCase text with
      | some (s, text) => readClassBody ignoreCase fuel (inner.add s 0) outer text
      | none => do
        let (opened, text) ← openClass text
        readClassBody ignoreCase fuel opened (inner :: outer) text
    | ']' :: text =>
      let (s, depth) := inner.close ignoreCase
      match outer with
      | [] => some ((s, depth), text)
      | around :: outer => readClassBody ignoreCase fuel (around.add s depth) outer text
    | '&' :: '&' :: text =>
      readClassBody ignoreCase fuel (inner.operate ignoreCase .inter) outer text
    | '-' :: '-' :: text =>
      readClassBody ignoreCase fuel (inner.operate ignoreCase .diff) outer text
    | '~' :: '~' :: text =>
      readClassBody ignoreCase fuel (inner.operate ignoreCase .symmDiff) outer text
    | text => do
      let (s, text) ← readClassRange text
      readClassBody ignoreCase fuel (inner.add s 0) outer text

/-- A class, from behind its opening bracket, and how deep it is.  The fuel has to exceed the length
of the text. -/
def readClass (ignoreCase : Bool) (fuel : Nat) (text : List Char) :
    Option ((CharSet × Nat) × List Char) := do
  let (opened, rest) ← openClass text
  readClassBody ignoreCase fuel opened [] rest

end AllParses.Pattern
