import AllParses.Json.Number
import AllParses.Json.Text

/-!
# Passing over JSON values

A value that nothing asks for is passed over.  It has to be well formed, but may nest to any depth:
the containers that are open are kept on a stack.
-/

namespace AllParses.Json

/-- A container that is open. -/
inductive Container where
  | array
  | object

/-- Passes over a string, from behind its opening quote. -/
def skipText (text : List Char) : Except Fault (List Char) :=
  (readChars false .plain [] text).map Prod.snd

/-- Passes over the key of a member and the colon. -/
def skipKey (text : List Char) : Except Fault (List Char) := do
  match skipSpace text with
  | [] => .error .truncated
  | '"' :: text =>
    match skipSpace (← skipText text) with
    | [] => .error .truncated
    | ':' :: text => return text
    | _ => .error .malformed
  | _ => .error .malformed

mutual

/-- Passes over a value and over the rest of the containers that are open around it. -/
def skipValueIn : (fuel : Nat) → List Container → List Char → Except Fault (List Char)
  | 0, _, _ => .error .malformed
  | fuel + 1, outer, text =>
    match skipSpace text with
    | [] => .error .truncated
    | c :: text =>
      match c with
      | 'n' => do skipRest fuel outer (← readWord "ull".toList text)
      | 't' => do skipRest fuel outer (← readWord "rue".toList text)
      | 'f' => do skipRest fuel outer (← readWord "alse".toList text)
      | '"' => do skipRest fuel outer (← skipText text)
      | '[' =>
        match skipSpace text with
        | ']' :: text => skipRest fuel outer text
        | text => skipValueIn fuel (.array :: outer) text
      | '\x7b' =>
        match skipSpace text with
        | '\x7d' :: text => skipRest fuel outer text
        | text => do skipValueIn fuel (.object :: outer) (← skipKey text)
      | c =>
        if c = '-' || c.isDigit then do
          let (_, text) ← readNumberText .malformed (c :: text)
          skipRest fuel outer text
        else
          .error .malformed

/-- Passes over what is left, behind a value, of the containers that are open. -/
def skipRest : (fuel : Nat) → List Container → List Char → Except Fault (List Char)
  | 0, _, _ => .error .malformed
  | _, [], text => .ok text
  | fuel + 1, .array :: outer, text =>
    match skipSpace text with
    | [] => .error .truncated
    | ',' :: text => skipValueIn fuel (.array :: outer) text
    | ']' :: text => skipRest fuel outer text
    | _ => .error .malformed
  | fuel + 1, .object :: outer, text =>
    match skipSpace text with
    | [] => .error .truncated
    | ',' :: text => do skipValueIn fuel (.object :: outer) (← skipKey text)
    | '\x7d' :: text => skipRest fuel outer text
    | _ => .error .malformed

end

/-- Passes over one value.  Every step but the last consumes a character. -/
def skipValue (text : List Char) : Except Fault (List Char) :=
  skipValueIn (2 * text.length + 2) [] text

end AllParses.Json
