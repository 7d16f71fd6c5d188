import AllParses.Pattern.Basic
import AllParses.Unicode.Scalar

/-!
# Escapes in patterns

What may follow a backslash.  Each reader takes the text behind what has been read already, gives
what it has found together with the rest of the text, and answers `none` when the text is not a
pattern.
-/

namespace AllParses.Pattern

/-- What an escape stands for. -/
inductive Escaped where
  | literal (c : Char)
  | set (s : CharSet)
  | check (b : Boundary)

/-- The number that hexadecimal digits denote. -/
def hexNumber? (digits : List Char) : Option Nat :=
  digits.foldlM (fun n c => (Unicode.hexDigit? c).map (16 * n + ·)) 0

/-- The number of an escaped character: digits in braces, or exactly `width` digits. -/
def readHex (width : Nat) (text : List Char) : Option (Char × List Char) :=
  match text with
  | '\x7b' :: text => do
    let digits := text.takeWhile (· != '\x7d')
    let rest := text.drop digits.length
    guard (!digits.isEmpty && !rest.isEmpty)
    return (← Unicode.charOf? (← hexNumber? digits), rest.drop 1)
  | text => do
    let digits := text.take width
    guard (digits.length = width)
    return (← Unicode.charOf? (← hexNumber? digits), text.drop width)

/-- The special word boundaries, which are named in braces.  Other braces belong to a counted
repetition. -/
def readWordEdge (text : List Char) : Option (Boundary × List Char) :=
  let isNameChar (c : Char) : Bool := ('a' ≤ c && c ≤ 'z') || ('A' ≤ c && c ≤ 'Z') || c = '-'
  match text with
  | '\x7b' :: inner =>
    match inner with
    | [] => none
    | c :: _ =>
      if isNameChar c then
        let name := inner.takeWhile isNameChar
        match inner.drop name.length with
        | '\x7d' :: rest =>
          match String.ofList name with
          | "start" => some (.wordStart, rest)
          | "end" => some (.wordEnd, rest)
          | "start-half" => some (.wordStartHalf, rest)
          | "end-half" => some (.wordEndHalf, rest)
          | _ => none
        | _ => none
      else
        some (.wordEdge, text)
  | _ => some (.wordEdge, text)

/-- Whether a character other than a letter or digit may be escaped without need. -/
def isEscapable (c : Char) : Bool :=
  c.toNat < 0x80 && !c.isAlphanum && c != '<' && c != '>'

/-- An escape, from behind its backslash. -/
def readEscape : List Char → Option (Escaped × List Char)
  | [] => none
  | c :: rest =>
    match c with
    | 'd' => some (.set .digit, rest)
    | 's' => some (.set .white, rest)
    | 'w' => some (.set .word, rest)
    | 'D' => some (.set (.compl .digit), rest)
    | 'S' => some (.set (.compl .white), rest)
    | 'W' => some (.set (.compl .word), rest)
    | 'x' => (readHex 2 rest).map fun (c, rest) => (.literal c, rest)
    | 'u' => (readHex 4 rest).map fun (c, rest) => (.literal c, rest)
    | 'U' => (readHex 8 rest).map fun (c, rest) => (.literal c, rest)
    | 'a' => some (.literal '\x07', rest)
    | 'f' => some (.literal '\x0c', rest)
    | 't' => some (.literal '\t', rest)
    | 'n' => some (.literal '\n', rest)
    | 'r' => some (.literal '\r', rest)
    | 'v' => some (.literal '\x0b', rest)
    | 'A' => some (.check .textStart, rest)
    | 'z' => some (.check .textEnd, rest)
    | 'b' => (readWordEdge rest).map fun (b, rest) => (.check b, rest)
    | 'B' => some (.check .notWordEdge, rest)
    | '<' => some (.check .wordStart, rest)
    | '>' => some (.check .wordEnd, rest)
    | c => if isEscapable c then some (.literal c, rest) else none

end AllParses.Pattern
