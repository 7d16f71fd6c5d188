import AllParses.Json.Float
import AllParses.Json.Library

/-!
# JSON numbers

A number is scanned as its digits.  The only numbers that are used are sizes: whole numbers below
2^64, written without sign, fraction and exponent.  Other numbers are taken for double-precision
floats, and must not be too large.
-/

namespace AllParses.Json

/-- A number as it is written. -/
structure NumberText where
  negative : Bool
  /-- The digits before the point. -/
  whole : List Char
  /-- The digits behind the point, if there is one. -/
  fraction : Option (List Char)
  /-- Whether the exponent is negative, and its digits, if there is one. -/
  exponent : Option (Bool × List Char)

/-- Reads at least one digit; `atEnd` is the fault when the text ends instead. -/
def readDigits (atEnd : Fault) (text : List Char) : Except Fault (List Char × List Char) :=
  match text with
  | [] => .error atEnd
  | c :: _ =>
    if c.isDigit then
      let digits := text.takeWhile Char.isDigit
      .ok (digits, text.drop digits.length)
    else
      .error .malformed

/-- Reads the digits before the point: a zero has no digit behind it. -/
def readWhole (atEnd : Fault) (text : List Char) : Except Fault (List Char × List Char) := do
  let (digits, rest) ← readDigits atEnd text
  match digits with
  | '0' :: _ :: _ => .error .malformed
  | _ => return (digits, rest)

/-- Reads the point and the digits behind it, if there is a point. -/
def readFraction (atEnd : Fault) (text : List Char) :
    Except Fault (Option (List Char) × List Char) :=
  match text with
  | '.' :: text => do
    let (digits, rest) ← readDigits atEnd text
    return (some digits, rest)
  | text => return (none, text)

/-- Reads the exponent, if there is one. -/
def readExponent (atEnd : Fault) (text : List Char) :
    Except Fault (Option (Bool × List Char) × List Char) :=
  match text with
  | c :: text =>
    if c = 'e' || c = 'E' then do
      let (negative, text) := match text with
        | '-' :: text => (true, text)
        | '+' :: text => (false, text)
        | text => (false, text)
      let (digits, rest) ← readDigits atEnd text
      return (some (negative, digits), rest)
    else
      return (none, c :: text)
  | [] => return (none, [])

/-- Reads a number; `atEnd` is the fault when the text ends where a digit has to follow. -/
def readNumberText (atEnd : Fault) (text : List Char) :
    Except Fault (NumberText × List Char) := do
  let (negative, text) := match text with
    | '-' :: text => (true, text)
    | text => (false, text)
  let (whole, text) ← readWhole atEnd text
  let (fraction, text) ← readFraction atEnd text
  let (exponent, text) ← readExponent atEnd text
  return (⟨negative, whole, fraction, exponent⟩, text)

/-- The number that decimal digits denote. -/
def decimal (digits : List Char) : Nat :=
  digits.foldl (fun n c => 10 * n + (c.toNat - 48)) 0

namespace NumberText

/-- Appends digits to a number as long as the result is a size.  Gives the number and the digits
that are left. -/
def appendDigits (n : Nat) : List Char → Nat × List Char
  | [] => (n, [])
  | c :: digits =>
    let next := 10 * n + (c.toNat - 48)
    if next ≤ maxSize then appendDigits next digits else (n, c :: digits)

/-- The number without its sign as a size and a power of ten.  Digits that do not fit are taken for
zeros; behind the point there is a new attempt to make them fit. -/
def scaled (n : NumberText) : Nat × Int :=
  let (significand, dropped) := appendDigits 0 n.whole
  let fraction := n.fraction.getD []
  let (significand, ignored) := appendDigits significand fraction
  let exponent : Int := match n.exponent with
    | none => 0
    | some (true, digits) => -(decimal digits : Int)
    | some (false, digits) => decimal digits
  (significand, exponent + dropped.length - (fraction.length - ignored.length : Nat))

/-- Whether the number is too large for a double-precision float. -/
def isInfinite (n : NumberText) : Bool :=
  let (significand, power) := n.scaled
  overflowsDouble significand power

/-- The size that the number is written as. -/
def size? (n : NumberText) : Option Nat :=
  match n.negative, n.fraction, n.exponent with
  | false, none, none =>
    let value := decimal n.whole
    if value ≤ maxSize then some value else none
  | _, _, _ => none

end NumberText

/-- Reads a number that is used. -/
def readNumber : Reader NumberText := fun text => do
  let (n, rest) ← readNumberText .truncated text
  if n.isInfinite then .error .malformed else .ok (n, rest)

/-- A size as it is written. -/
def writeSize (n : Nat) : List Char :=
  Nat.toDigits 10 n

end AllParses.Json
