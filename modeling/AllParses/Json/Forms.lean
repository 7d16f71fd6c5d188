import AllParses.Grammar.Parsing
import AllParses.Json.Library

/-!
# The JSON forms of grammars and trees

How each type of value is put together from the forms that a library for JSON offers: symbols are
variants whose content is their name; options, grammars and nodes are records; the kind of a node is
a variant without content.
-/

namespace AllParses

open Json

variable (json : Library)

/-! ## Options -/

namespace Grammar.Options

/-- Options as they are written. -/
def toJson (o : Options) : List Char :=
  json.writeRecord
    [("skip_layout", json.writeBool o.skipLayout), ("max_results", json.writeSize? o.maxResults)]

/-- Options of which some fields may not have been read. -/
structure Draft where
  skipLayout : Option Bool := none
  maxResults : Option (Option Nat) := none

/-- The fields of options, in their order. -/
def fields : List (RecordField Draft) :=
  [.of "skip_layout" Draft.skipLayout (fun o b => { o with skipLayout := some b }) json.readBool,
   .of "max_results" Draft.maxResults (fun o n => { o with maxResults := some n }) json.readSize?]

/-- The options that have been read.  What is not given keeps its default. -/
def Draft.complete (o : Draft) : Options :=
  let default : Options := {}
  ⟨o.skipLayout.getD default.skipLayout, o.maxResults.getD default.maxResults⟩

/-- Reads options. -/
def readJson (depth : Nat) : Reader Options :=
  json.readRecord depth (fun _ => fields json) {} fun o => some o.complete

/-- The options that a text holds. -/
def ofJson (text : List Char) : Except Fault Options :=
  json.readWhole? (readJson json) text

end Grammar.Options

/-! ## Symbols -/

namespace Grammar.Symbol

/-- The name of the symbol's kind. -/
def kind : Symbol → String
  | terminal _ => "Terminal"
  | nonterminal _ => "Nonterminal"

/-- The symbol of a kind that is given by its name. -/
def ofKind? (kind : String) : Option (String → Symbol) :=
  match kind with
  | "Terminal" => some terminal
  | "Nonterminal" => some nonterminal
  | _ => none

/-- A symbol as it is written. -/
def toJson (s : Symbol) : List Char :=
  json.writeVariant s.kind (json.writeText s.name)

/-- Reads a symbol. -/
def readJson (depth : Nat) : Reader Symbol :=
  json.readVariant depth fun kind => (ofKind? kind).map fun make => json.readText.map make

/-- The symbol that a text holds. -/
def ofJson (text : List Char) : Except Fault Symbol :=
  json.readWhole? (readJson json) text

end Grammar.Symbol

/-! ## Grammars -/

namespace Grammar

/-- Alternatives as they are written. -/
def alternativesToJson (alternatives : List Alternative) : List Char :=
  json.writeArray (alternatives.map fun symbols =>
    json.writeArray (symbols.map fun s => s.toJson json))

/-- A grammar as it is written when the entries of its map are taken in the given order. -/
def jsonOfEntries (entries : List Rule) (order : List String) : List Char :=
  json.writeRecord
    [("rules", json.writeMap (entries.map fun rule => (rule.1, alternativesToJson json rule.2))),
     ("order", json.writeArray (order.map json.writeText))]

/-- A grammar as it is written: the rules by name, and the order of the names. -/
def toJson (g : Grammar) : List Char :=
  jsonOfEntries json g.alternativesOf.toList g.order

/-- A grammar of which some fields may not have been read. -/
structure Draft where
  rules : Option (Std.ExtTreeMap String (List Alternative)) := none
  order : Option (List String) := none

/-- Reads alternatives. -/
def readAlternatives (depth : Nat) : Reader (List Alternative) :=
  json.readArray depth fun depth => json.readArray depth (Symbol.readJson json)

/-- The fields of a grammar, in their order. -/
def fields (depth : Nat) : List (RecordField Draft) :=
  [.of "rules" Draft.rules (fun g rules => { g with rules := some rules })
     (json.readMap depth (readAlternatives json)),
   .of "order" Draft.order (fun g order => { g with order := some order })
     (json.readArray depth fun _ => json.readText)]

/-- The grammar that has been read.  The rules and the order need not agree. -/
def Draft.complete? (g : Draft) : Option Grammar :=
  match g.rules, g.order with
  | some rules, some order => some ⟨rules, order⟩
  | _, _ => none

/-- Reads a grammar. -/
def readJson (depth : Nat) : Reader Grammar :=
  json.readRecord depth (fields json) {} Draft.complete?

/-- The grammar that a text holds. -/
def ofJson (text : List Char) : Except Fault Grammar :=
  json.readWhole? (readJson json) text

end Grammar

/-! ## Trees -/

namespace ParseTree

mutual

/-- A tree as it is written. -/
def toJson : ParseTree → List Char
  | node label children =>
    json.writeRecord
      [("symbol", json.writeText label.name), ("kind", json.writeBareVariant label.kind),
       ("children", json.writeArray (forestToJson children))]

/-- Trees as they are written, each by itself. -/
def forestToJson : List ParseTree → List (List Char)
  | [] => []
  | t :: ts => t.toJson :: forestToJson ts

end

/-- A node of which some fields may not have been read. -/
structure Draft where
  symbol : Option String := none
  kind : Option (String → Grammar.Symbol) := none
  children : Option (List ParseTree) := none

/-- Reads the name of a kind. -/
def readKind (depth : Nat) : Reader (String → Grammar.Symbol) :=
  json.readBareVariant depth Grammar.Symbol.ofKind?

/-- The fields of a node, in their order, given the reader of its children. -/
def fields (children : Reader (List ParseTree)) (depth : Nat) : List (RecordField Draft) :=
  [.of "symbol" Draft.symbol (fun t symbol => { t with symbol := some symbol }) json.readText,
   .of "kind" Draft.kind (fun t kind => { t with kind := some kind }) (readKind json depth),
   .of "children" Draft.children (fun t ts => { t with children := some ts }) children]

/-- The node that has been read. -/
def Draft.complete? (t : Draft) : Option ParseTree :=
  match t.symbol, t.kind, t.children with
  | some symbol, some kind, some children => some (node (kind symbol) children)
  | _, _, _ => none

/-- Reads a node, given the reader of its children. -/
def readNode (depth : Nat) (children : Reader (List ParseTree)) : Reader ParseTree :=
  json.readRecord depth (fields json children) {} Draft.complete?

/-- Reads a tree.  A node opens one container for itself and one for its children; where no second
one may be opened, no child is read. -/
def readJson : (depth : Nat) → Reader ParseTree
  | 0 => readNode json 0 (json.readArray 0 fun _ _ => .error .malformed)
  | 1 => readNode json 1 (json.readArray 0 fun _ _ => .error .malformed)
  | depth + 2 =>
    readNode json (depth + 2) (json.readArray (depth + 1) fun _ => readJson depth)

/-- The tree that a text holds. -/
def ofJson (text : List Char) : Except Fault ParseTree :=
  json.readWhole? (readJson json) text

end ParseTree

end AllParses
