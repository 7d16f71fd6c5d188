import AllParses.Json.Skip

/-!
# Reading JSON values of a given form

Readers for the forms of text that values are written in.  A value of another form is a mismatch, but a
text that is not JSON is reported as such, so a scalar of the wrong form is read before it is
refused.

A container counts against the depth that is left when it is opened.
-/

namespace AllParses.Json

/-- Refuses a value of the wrong form. -/
def refuse {α : Type} (text : List Char) : Except Fault α := do
  match text with
  | [] => .error .truncated
  | c :: rest =>
    match c with
    | 'n' => let _ ← readWord "ull".toList rest
             .error .mismatch
    | 't' => let _ ← readWord "rue".toList rest
             .error .mismatch
    | 'f' => let _ ← readWord "alse".toList rest
             .error .mismatch
    | '"' => let _ ← readTextBody rest
             .error .mismatch
    | '[' => .error .mismatch
    | '\x7b' => .error .mismatch
    | c =>
      if c = '-' || c.isDigit then
        let _ ← readNumber (c :: rest)
        .error .mismatch
      else
        .error .malformed

/-- A string. -/
def readText : Reader String := fun text =>
  match skipSpace text with
  | '"' :: rest => readTextBody rest
  | text => refuse text

/-- A truth value. -/
def readBool : Reader Bool := fun text =>
  match skipSpace text with
  | 't' :: rest => return (true, ← readWord "rue".toList rest)
  | 'f' :: rest => return (false, ← readWord "alse".toList rest)
  | text => refuse text

/-- The empty value. -/
def readNull : Reader Unit := fun text =>
  match skipSpace text with
  | 'n' :: rest => return ((), ← readWord "ull".toList rest)
  | text => refuse text

/-- A size, or the empty value for none. -/
def readSize? : Reader (Option Nat) := fun text =>
  match skipSpace text with
  | 'n' :: rest => return (none, ← readWord "ull".toList rest)
  | c :: rest =>
    if c = '-' || c.isDigit then do
      let (n, rest) ← readNumber (c :: rest)
      match n.size? with
      | some n => return (some n, rest)
      | none => .error .mismatch
    else
      refuse (c :: rest)
  | [] => .error .truncated

/-- The colon behind a key. -/
def readColon (text : List Char) : Except Fault (List Char) :=
  match skipSpace text with
  | [] => .error .truncated
  | ':' :: rest => .ok rest
  | _ => .error .malformed

/-- Goes to the next element of an array: `none` behind its last one. -/
def nextElement (first : Bool) (text : List Char) : Except Fault (Option Unit × List Char) :=
  match skipSpace text with
  | [] => .error .truncated
  | ']' :: rest => .ok (none, rest)
  | c :: rest =>
    if first then .ok (some (), c :: rest)
    else if c = ',' then
      match skipSpace rest with
      | [] => .error .truncated
      | ']' :: _ => .error .malformed
      | rest => .ok (some (), rest)
    else .error .malformed

/-- The key of a member.  Only a string can be one. -/
def readKey : Reader String
  | [] => .error .truncated
  | '"' :: rest => readTextBody rest
  | _ => .error .malformed

/-- Goes to the next key of an object and reads it: `none` behind the last member. -/
def nextKey (first : Bool) (text : List Char) : Except Fault (Option String × List Char) := do
  match skipSpace text with
  | [] => .error .truncated
  | '\x7d' :: rest => return (none, rest)
  | c :: rest =>
    if !first && c != ',' then .error .malformed
    else
      let (key, rest) ← readKey (if first then c :: rest else skipSpace rest)
      return (some key, rest)

/-- The elements of an array, from behind its bracket. -/
def readElements {α : Type} (element : Reader α) :
    (fuel : Nat) → (first : Bool) → (seen : List α) → Reader (List α)
  | 0, _, _, _ => .error .malformed
  | fuel + 1, first, seen, text => do
    match ← nextElement first text with
    | (none, rest) => return (seen.reverse, rest)
    | (some (), rest) =>
      let (a, rest) ← element rest
      readElements element fuel false (a :: seen) rest

/-- The members of an object, from behind its brace.  `member` is given what has been gathered, the
key, and the text behind the key. -/
def readMembers {α : Type} (member : α → String → Reader α) :
    (fuel : Nat) → (first : Bool) → (gathered : α) → Reader α
  | 0, _, _, _ => .error .malformed
  | fuel + 1, first, gathered, text => do
    match ← nextKey first text with
    | (none, rest) => return (gathered, rest)
    | (some key, rest) =>
      let (gathered, rest) ← member gathered key rest
      readMembers member fuel false gathered rest

/-- An array; its elements are read with one level of depth less. -/
def readArray {α : Type} (depth : Nat) (element : Nat → Reader α) : Reader (List α) := fun text =>
  match skipSpace text with
  | '[' :: rest =>
    match depth with
    | 0 => .error .malformed
    | depth + 1 => readElements (element depth) (rest.length + 1) true [] rest
  | text => refuse text

/-- An object with arbitrary keys, as pairs in the order of the text. -/
def readMap {α : Type} (depth : Nat) (value : Nat → Reader α) : Reader (List (String × α)) :=
  fun text =>
    match skipSpace text with
    | '\x7b' :: rest =>
      match depth with
      | 0 => .error .malformed
      | depth + 1 => do
        let member (seen : List (String × α)) (key : String) : Reader (List (String × α)) :=
          fun text => do
            let (a, rest) ← value depth (← readColon text)
            return ((key, a) :: seen, rest)
        let (seen, rest) ← readMembers member (rest.length + 1) true [] rest
        return (seen.reverse, rest)
    | text => refuse text

/-- The fields of a record that is written as an array, from the first one on. -/
def readFields {α : Type} : List (RecordField α) → (first : Bool) → α → Reader α
  | [], _, a, text =>
    match skipSpace text with
    | [] => .error .truncated
    | ']' :: rest => .ok (a, rest)
    | _ => .error .malformed
  | field :: fields, first, a, text => do
    match ← nextElement first text with
    | (none, rest) => return (a, rest)
    | (some (), rest) =>
      let (a, rest) ← field.read a rest
      readFields fields false a rest

/-- A record: an object with the given fields, or an array of their values in this order.  Other
members of the object are passed over, and no field may be given twice. -/
def readRecord {α : Type} (depth : Nat) (fields : Nat → List (RecordField α)) (start : α) :
    Reader α :=
  fun text =>
    match skipSpace text with
    | '\x7b' :: rest =>
      match depth with
      | 0 => .error .malformed
      | depth + 1 =>
        let member (a : α) (key : String) : Reader α := fun text => do
          match (fields depth).find? (·.name = key) with
          | none => return (a, ← skipValue (← readColon text))
          | some field =>
            if field.isSet a then .error .mismatch else field.read a (← readColon text)
        readMembers member (rest.length + 1) true start rest
    | '[' :: rest =>
      match depth with
      | 0 => .error .malformed
      | depth + 1 => readFields (fields depth) true start rest
    | text => refuse text

/-- A named variant: an object with the name as its only key, whose content is read by `content`,
or the name alone, which stands for what `bare` gives. -/
def readVariant {α : Type} (depth : Nat) (content : String → Option (Reader α))
    (bare : String → Option α) : Reader α := fun text =>
  match skipSpace text with
  | [] => .error .truncated
  | '\x7b' :: rest =>
    if depth = 0 then .error .malformed
    else do
      let (name, rest) ← readKey (skipSpace rest)
      match content name with
      | none => .error .mismatch
      | some read =>
        let (a, rest) ← read (← readColon rest)
        match skipSpace rest with
        | [] => .error .truncated
        | '\x7d' :: rest => return (a, rest)
        | _ => .error .malformed
  | '"' :: rest => do
    let (name, rest) ← readTextBody rest
    match bare name with
    | some a => return (a, rest)
    | none => .error .mismatch
  | _ => .error .malformed

/-- Reads a whole text as one value. -/
def readWhole? {α : Type} (value : Nat → Reader α) (text : List Char) : Except Fault α := do
  let (a, rest) ← value maxDepth text
  match skipSpace rest with
  | [] => return a
  | _ => .error .malformed

end AllParses.Json
