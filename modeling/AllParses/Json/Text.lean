import AllParses.Json.Fault
import AllParses.Unicode.Scalar

/-!
# JSON strings

Strings as they are written, between quotes and with escapes.  The reader goes through the text one
character at a time; where it is inside an escape is its state.
-/

namespace AllParses.Json

/-- A control character is escaped by its letter or by its code point, a quote and a backslash are
escaped by a backslash, and all else stands for itself. -/
def writeChar (c : Char) : List Char :=
  match c with
  | '"' => ['\\', '"']
  | '\\' => ['\\', '\\']
  | '\x08' => ['\\', 'b']
  | '\x0c' => ['\\', 'f']
  | '\n' => ['\\', 'n']
  | '\r' => ['\\', 'r']
  | '\t' => ['\\', 't']
  | c =>
    if c.toNat < 0x20 then
      ['\\', 'u', '0', '0', Unicode.hexDigit (c.toNat / 16), Unicode.hexDigit (c.toNat % 16)]
    else
      [c]

/-- A string as it is written, with its quotes. -/
def writeText (s : String) : List Char :=
  '"' :: s.toList.flatMap writeChar ++ ['"']

/-- Where the reader of a string is. -/
inductive TextState where
  | plain
  /-- Behind a backslash. -/
  | escape
  /-- Inside a code unit of which `value` has been read and `left` digits and one more are still to
  come.  `high` is the first unit of a pair when this is the second. -/
  | unit (left value : Nat) (high : Option Nat)
  /-- Before the backslash of the second unit of a pair. -/
  | secondSlash (high : Nat)
  /-- Behind the backslash of the second unit of a pair. -/
  | secondLetter (high : Nat)

/-- The character that an escape by letter stands for. -/
def escaped? (c : Char) : Option Char :=
  match c with
  | '"' => some '"'
  | '\\' => some '\\'
  | '/' => some '/'
  | 'b' => some '\x08'
  | 'f' => some '\x0c'
  | 'n' => some '\n'
  | 'r' => some '\r'
  | 't' => some '\t'
  | _ => none

def isHighSurrogate (n : Nat) : Bool :=
  0xd800 ≤ n && n < 0xdc00

def isLowSurrogate (n : Nat) : Bool :=
  0xdc00 ≤ n && n < 0xe000

/-- The character of a surrogate pair. -/
def pairChar (high low : Nat) : Char :=
  Char.ofNat (0x10000 + (high - 0xd800) * 0x400 + (low - 0xdc00))

/-- Whether the text has fewer than four bytes, so that no code unit can follow. -/
def lacksUnit (text : List Char) : Bool :=
  (text.take 4).foldl (fun n c => n + c.utf8Size) 0 < 4

/-- Reads a string to its closing quote.  `seen` holds the characters so far, the last one first.
Code units that form no character are a fault when `strict`, and are passed over otherwise. -/
def readChars (strict : Bool) : TextState → (seen : List Char) → Reader (List Char)
  | _, _, [] => .error .truncated
  | .plain, seen, c :: text =>
    if c = '"' then .ok (seen.reverse, text)
    else if c = '\\' then readChars strict .escape seen text
    else if c.toNat < 0x20 then .error .malformed
    else readChars strict .plain (c :: seen) text
  | .escape, seen, c :: text =>
    if c = 'u' then
      if lacksUnit text then .error .truncated else readChars strict (.unit 3 0 none) seen text
    else
      match escaped? c with
      | some d => readChars strict .plain (d :: seen) text
      | none => .error .malformed
  | .unit left value high, seen, c :: text =>
    match Unicode.hexDigit? c with
    | none => .error .malformed
    | some d =>
      let value := 16 * value + d
      match left with
      | left + 1 => readChars strict (.unit left value high) seen text
      | 0 =>
        if !strict then readChars strict .plain seen text
        else
          match high with
          | some high =>
            if isLowSurrogate value then
              readChars strict .plain (pairChar high value :: seen) text
            else
              .error .malformed
          | none =>
            if isLowSurrogate value then .error .malformed
            else if isHighSurrogate value then readChars strict (.secondSlash value) seen text
            else readChars strict .plain (Char.ofNat value :: seen) text
  | .secondSlash high, seen, c :: text =>
    if c = '\\' then readChars strict (.secondLetter high) seen text else .error .malformed
  | .secondLetter high, seen, c :: text =>
    if c = 'u' then
      if lacksUnit text then .error .truncated
      else readChars strict (.unit 3 0 (some high)) seen text
    else
      .error .malformed

/-- Reads a string from behind its opening quote. -/
def readTextBody : Reader String := fun text =>
  (readChars true .plain [] text).map fun (cs, rest) => (String.ofList cs, rest)

end AllParses.Json
