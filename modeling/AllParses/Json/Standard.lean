import AllParses.Json.Reader

/-!
# A library for JSON

The readers of the other modules and the writers that go with them.  Nothing is written between the
parts of a value, records and maps are written as objects, and a variant with content is an object
whose only key is its name.
-/

namespace AllParses.Json

/-- Parts with commas between them. -/
def writeParts (parts : List (List Char)) : List Char :=
  [','].intercalate parts

/-- An array of written elements. -/
def writeArray (elements : List (List Char)) : List Char :=
  '[' :: writeParts elements ++ [']']

/-- An object of written members. -/
def writeObject (members : List (String × List Char)) : List Char :=
  '\x7b' :: writeParts (members.map fun (key, value) => writeText key ++ ':' :: value) ++ ['\x7d']

/-- A truth value as it is written. -/
def writeBool (b : Bool) : List Char :=
  (if b then "true" else "false").toList

/-- A size, or the empty value for none, as it is written. -/
def writeSize? : Option Nat → List Char
  | some n => writeSize n
  | none => "null".toList

/-- A table of entries, of which the last one with a name counts. -/
def tableOf {α : Type} (entries : List (String × α)) : Std.ExtTreeMap String α :=
  entries.foldl (fun table (name, a) => table.insert name a) ∅

/-- A variant without content may be given with the empty value as its content. -/
def emptyContent {α : Type} (meaning : String → Option α) (name : String) : Option (Reader α) :=
  (meaning name).map fun a => readNull.map fun () => a

/-- The library that is used by default. -/
def standard : Library where
  writeText := writeText
  writeBool := writeBool
  writeSize? := writeSize?
  writeArray := writeArray
  writeMap := writeObject
  writeRecord := writeObject
  writeVariant name content := writeObject [(name, content)]
  writeBareVariant := writeText
  readText := readText
  readBool := readBool
  readSize? := readSize?
  readArray := readArray
  readMap depth value := (readMap depth value).map tableOf
  readRecord depth fields start complete? text := do
    let (a, rest) ← readRecord depth fields start text
    match complete? a with
    | some b => return (b, rest)
    | none => .error .mismatch
  readVariant depth content := readVariant depth content fun _ => none
  readBareVariant depth meaning := readVariant depth (emptyContent meaning) meaning
  readWhole? := readWhole?

end AllParses.Json
