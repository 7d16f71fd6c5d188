import AllParses.Json.Fault
import Std.Data.ExtTreeMap

/-!
# What is asked of a library for JSON

Grammars, trees and options are written and read by a library for JSON: a `Library` is what it
offers, one writer and one reader for every form that is used.  `Library.Documented` is what can be
relied on.  Each of its laws is about one form: when the parts of a written value are read with
certain outcomes, it says with which outcome the value is.
-/

namespace AllParses.Json

/-- The greatest size. -/
def maxSize : Nat := 0xffffffffffffffff

/-- The number of containers that may be open at once. -/
def maxDepth : Nat := 127

/-- A field of a record, read into a partly filled value. -/
structure RecordField (α : Type) where
  name : String
  /-- Whether the field has been read already. -/
  isSet : α → Bool
  /-- Reads the field's value and puts it in. -/
  read : α → Reader α

/-- A field of the given name, which is found by `get?` and filled by `put`. -/
def RecordField.of {α β : Type} (name : String) (get? : α → Option β) (put : α → β → α)
    (value : Reader β) : RecordField α where
  name := name
  isSet a := (get? a).isSome
  read a := value.map (put a)

/-- A library for JSON.  The reader of a container is given the number of containers that may still
be opened, and hands what is left of it to the readers of the parts. -/
structure Library where
  writeText : String → List Char
  writeBool : Bool → List Char
  /-- A size, or the empty value for none. -/
  writeSize? : Option Nat → List Char
  /-- An array of written elements. -/
  writeArray : (elements : List (List Char)) → List Char
  /-- A map with written values, in the given order. -/
  writeMap : (entries : List (String × List Char)) → List Char
  /-- A record with written fields. -/
  writeRecord : (members : List (String × List Char)) → List Char
  /-- A variant with written content. -/
  writeVariant : (name : String) → (content : List Char) → List Char
  /-- A variant without content. -/
  writeBareVariant : (name : String) → List Char
  readText : Reader String
  readBool : Reader Bool
  readSize? : Reader (Option Nat)
  readArray {α : Type} (depth : Nat) (element : Nat → Reader α) : Reader (List α)
  readMap {α : Type} (depth : Nat) (value : Nat → Reader α) : Reader (Std.ExtTreeMap String α)
  /-- A record with the given fields, filled from `start` on; `complete?` gives the value when the
  fields that have to be there are. -/
  readRecord {α β : Type} (depth : Nat) (fields : Nat → List (RecordField α)) (start : α)
    (complete? : α → Option β) : Reader β
  /-- A variant, whose content is read as its name demands. -/
  readVariant {α : Type} (depth : Nat) (content : String → Option (Reader α)) : Reader α
  /-- A variant without content, which stands for what its name does. -/
  readBareVariant {α : Type} (depth : Nat) (meaning : String → Option α) : Reader α
  /-- Reads a whole text as one value. -/
  readWhole? {α : Type} (value : Nat → Reader α) (text : List Char) : Except Fault α

/-- A value begins here: with a character that is no space and does not close an array. -/
def BeginsValue : List Char → Prop
  | [] => False
  | c :: _ => isSpace c = false ∧ c ≠ ']'

/-- A value ends here: the text does, or a mark follows that ends an element or a container. -/
def EndsValue : List Char → Prop
  | [] => True
  | c :: _ => c = ',' ∨ c = ']' ∨ c = '\x7d'

/-- Whatever follows the written value, reading it has the outcome, and stops where the value
ends. -/
structure Reads {α : Type} (reader : Reader α) (text : List Char) (outcome : Except Fault α) :
    Prop where
  begins : BeginsValue text
  reads : ∀ rest, EndsValue rest → reader (text ++ rest) = outcome.map fun a => (a, rest)

theorem Reads.map {α β : Type} {reader : Reader α} {text : List Char} {outcome : Except Fault α}
    (reads : Reads reader text outcome) (f : α → β) :
    Reads (reader.map f) text (outcome.map f) where
  begins := reads.begins
  reads rest ends := by
    rw [Reader.map, reads.reads rest ends]
    cases outcome with
    | error fault => rfl
    | ok a => rfl

section

variable {α β : Type} {name : String} {get? : α → Option β} {put : α → β → α} {value : Reader β}
  {text : List Char}

theorem Reads.field {b : β} (reads : Reads value text (.ok b)) (a : α) :
    Reads ((RecordField.of name get? put value).read a) text (.ok (put a b)) :=
  reads.map (put a)

theorem Reads.field_fault {fault : Fault} (reads : Reads value text (.error fault)) (a : α) :
    Reads ((RecordField.of name get? put value).read a) text (.error fault) :=
  reads.map (put a)

end

/-- Written members are taken into a record one after the other: each one by the field of its name,
which has not been read before.  The outcome is the first fault, or the record behind the last
member. -/
inductive Fills {α : Type} (fields : List (RecordField α)) :
    α → List (String × List Char) → Except Fault α → Prop
  | done (a : α) : Fills fields a [] (.ok a)
  | field {a b : α} {key : String} {text : List Char} {members : List (String × List Char)}
      {outcome : Except Fault α} {field : RecordField α}
      (found : fields.find? (·.name = key) = some field) (unset : field.isSet a = false)
      (reads : Reads (field.read a) text (.ok b)) (more : Fills fields b members outcome) :
      Fills fields a ((key, text) :: members) outcome
  | fault {a : α} {key : String} {text : List Char} {members : List (String × List Char)}
      {fault : Fault} {field : RecordField α}
      (found : fields.find? (·.name = key) = some field) (unset : field.isSet a = false)
      (reads : Reads (field.read a) text (.error fault)) :
      Fills fields a ((key, text) :: members) (.error fault)

/-- The library reads what it writes, form by form. -/
structure Library.Documented (json : Library) : Prop where
  text (s : String) : Reads json.readText (json.writeText s) (.ok s)
  bool (b : Bool) : Reads json.readBool (json.writeBool b) (.ok b)
  size? {n : Option Nat} (small : ∀ m ∈ n, m ≤ maxSize) :
    Reads json.readSize? (json.writeSize? n) (.ok n)
  /-- The elements of an array are read in turn, up to the first fault. -/
  array {α β : Type} {depth : Nat} {element : Nat → Reader α} {write : β → List Char}
    {outcome : β → Except Fault α} {items : List β}
    (each : ∀ b ∈ items, Reads (element depth) (write b) (outcome b)) :
    Reads (json.readArray (depth + 1) element) (json.writeArray (items.map write))
      (items.mapM outcome)
  /-- The limit of open containers holds for arrays. -/
  array_zero {α : Type} {element : Nat → Reader α} (elements : List (List Char)) :
    Reads (json.readArray 0 element) (json.writeArray elements) (.error .malformed)
  /-- Entries with distinct names make up a map. -/
  map {α : Type} {depth : Nat} {value : Nat → Reader α} {write : α → List Char}
    {entries : List (String × α)} (distinct : (entries.map Prod.fst).Nodup)
    (each : ∀ e ∈ entries, Reads (value depth) (write e.2) (.ok e.2)) :
    Reads (json.readMap (depth + 1) value)
      (json.writeMap (entries.map fun e => (e.1, write e.2))) (.ok (.ofList entries))
  /-- A record with all fields that have to be there is read. -/
  record {α β : Type} {depth : Nat} {fields : Nat → List (RecordField α)} {start a : α}
    {members : List (String × List Char)} {complete? : α → Option β} {b : β}
    (fills : Fills (fields depth) start members (.ok a)) (complete : complete? a = some b) :
    Reads (json.readRecord (depth + 1) fields start complete?) (json.writeRecord members) (.ok b)
  /-- A fault in a field is a fault in the record. -/
  record_fault {α β : Type} {depth : Nat} {fields : Nat → List (RecordField α)} {start : α}
    {members : List (String × List Char)} {complete? : α → Option β} {fault : Fault}
    (fills : Fills (fields depth) start members (.error fault)) :
    Reads (json.readRecord (depth + 1) fields start complete?) (json.writeRecord members)
      (.error fault)
  /-- The limit of open containers holds for records. -/
  record_zero {α β : Type} {fields : Nat → List (RecordField α)} {start : α}
    {complete? : α → Option β} (members : List (String × List Char)) :
    Reads (json.readRecord 0 fields start complete?) (json.writeRecord members) (.error .malformed)
  /-- The content of a variant is read by the reader of its name. -/
  variant {α : Type} {depth : Nat} {content : String → Option (Reader α)} {name : String}
    {reader : Reader α} {text : List Char} {outcome : Except Fault α}
    (named : content name = some reader) (reads : Reads reader text outcome) :
    Reads (json.readVariant (depth + 1) content) (json.writeVariant name text) outcome
  /-- A variant without content stands for what its name does. -/
  bareVariant {α : Type} {depth : Nat} {meaning : String → Option α} {name : String} {a : α}
    (named : meaning name = some a) :
    Reads (json.readBareVariant depth meaning) (json.writeBareVariant name) (.ok a)
  /-- A text that holds nothing but a written value is read as a whole. -/
  whole {α : Type} {value : Nat → Reader α} {text : List Char} {outcome : Except Fault α}
    (reads : Reads (value maxDepth) text outcome) : json.readWhole? value text = outcome

end AllParses.Json
