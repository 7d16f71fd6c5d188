/-!
# Faults in JSON texts

A text is read from left to right, and the first problem met decides what is reported.
-/

namespace AllParses.Json

/-- Why a JSON text is rejected. -/
inductive Fault where
  /-- The text ends inside a value. -/
  | truncated
  /-- The text is not JSON, or nests too deeply, or goes on behind the value. -/
  | malformed
  /-- The text is JSON, but not of the form that is asked for. -/
  | mismatch
  deriving DecidableEq, Repr

namespace Fault

/-- The name under which the fault is reported. -/
def category : Fault → String
  | truncated => "Eof"
  | malformed => "Syntax"
  | mismatch => "Data"

end Fault

/-- Reads a value from the front of a text and gives what is left. -/
abbrev Reader (α : Type) := List Char → Except Fault (α × List Char)

/-- Makes something of what is read. -/
def Reader.map {α β : Type} (f : α → β) (reader : Reader α) : Reader β := fun text =>
  (reader text).map fun (a, rest) => (f a, rest)

section Outcomes

variable {α β : Type}

@[simp] theorem ok_bind (a : α) (next : α → Except Fault β) : (Except.ok a >>= next) = next a := rfl

@[simp] theorem error_bind (fault : Fault) (next : α → Except Fault β) :
    (Except.error fault >>= next) = .error fault := rfl

@[simp] theorem pure_eq_ok (a : α) : (pure a : Except Fault α) = .ok a := rfl

@[simp] theorem map_ok (f : α → β) (a : α) : (Except.ok a : Except Fault α).map f = .ok (f a) := rfl

@[simp] theorem map_error (f : α → β) (fault : Fault) :
    (Except.error fault : Except Fault α).map f = .error fault := rfl

end Outcomes

/-- Whether the character may stand between the parts of a JSON text. -/
def isSpace (c : Char) : Bool :=
  c = ' ' || c = '\n' || c = '\t' || c = '\r'

/-- The text from its first character on that is not space. -/
def skipSpace (text : List Char) : List Char :=
  text.dropWhile isSpace

/-- Reads the given characters. -/
def readWord : (word : List Char) → List Char → Except Fault (List Char)
  | [], text => .ok text
  | _ :: _, [] => .error .truncated
  | w :: word, c :: text => if c = w then readWord word text else .error .malformed

end AllParses.Json
