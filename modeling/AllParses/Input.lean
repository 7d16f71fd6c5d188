import AllParses.Unicode.WhiteSpace

/-!
# Inputs

An input is a sequence of symbols together with its length.  Parsers never change their input:
every step hands back what is left of it.  Because the length is stored, two inputs of different
length are told apart at once, which is the common case when a repetition asks whether its last
step has consumed anything.

Symbols come from an `Alphabet`: characters, where white space is layout and a name is spelt
letter by letter, or whole tokens, where nothing is layout and a name is one symbol.
-/

namespace AllParses

/-- What a parser has to know about the symbols it reads. -/
class Alphabet (σ : Type) where
  /-- Whether the symbol is insignificant between lexemes. -/
  isLayout : σ → Bool
  /-- The symbols that make up one lexeme of the given name. -/
  spell : String → List σ

/-- Text: white space is layout, and a name is spelt by its characters. -/
instance : Alphabet Char where
  isLayout := Unicode.isWhiteSpace
  spell := String.toList

/-- Tokens: there is no layout, and a name is one token. -/
instance : Alphabet String where
  isLayout _ := false
  spell name := [name]

/-- A sequence of symbols that knows its length. -/
structure Input (σ : Type) where
  /-- The symbols, first one first. -/
  symbols : List σ
  /-- How many symbols there are. -/
  size : Nat
  size_eq : size = symbols.length

namespace Input

variable {σ : Type}

/-- The input made of the given symbols. -/
def ofList (symbols : List σ) : Input σ :=
  ⟨symbols, symbols.length, rfl⟩

/-- The input made of the characters of `text`. -/
def ofString (text : String) : Input Char :=
  ofList text.toList

instance : Inhabited (Input σ) := ⟨ofList []⟩

theorem ext {x y : Input σ} (h : x.symbols = y.symbols) : x = y := by
  cases x with
  | mk xs n hn =>
    cases y with
    | mk ys m hm =>
      simp only at h hn hm
      subst h hn hm
      rfl

theorem eq_iff {x y : Input σ} : x = y ↔ x.symbols = y.symbols :=
  ⟨fun h => h ▸ rfl, ext⟩

instance [DecidableEq σ] : DecidableEq (Input σ) := fun x y =>
  decidable_of_iff (x.symbols = y.symbols) eq_iff.symm

/-- Inputs are compared symbol by symbol, in the way that the symbols are compared.  Lengths come
first, so that inputs of different length differ at once.  An input with a symbol that differs from
itself, as a float may, differs from itself. -/
instance [BEq σ] : BEq (Input σ) where
  beq x y := x.size == y.size && x.symbols == y.symbols

theorem beq_eq [BEq σ] (x y : Input σ) :
    (x == y) = (x.size == y.size && x.symbols == y.symbols) := rfl

instance [BEq σ] [ReflBEq σ] : ReflBEq (Input σ) where
  rfl := by simp [beq_eq]

instance [BEq σ] [LawfulBEq σ] : LawfulBEq (Input σ) where
  eq_of_beq same := by
    rw [beq_eq, Bool.and_eq_true] at same
    exact ext (eq_of_beq same.2)

/-- Whether no symbol is left. -/
def isEmpty (x : Input σ) : Bool :=
  x.symbols.isEmpty

/-- The first symbol. -/
def head? (x : Input σ) : Option σ :=
  x.symbols.head?

/-- The input without its first `n` symbols; empty when there are no more than `n`. -/
def drop (x : Input σ) (n : Nat) : Input σ :=
  ⟨x.symbols.drop n, x.size - n, by simp [x.size_eq]⟩

/-- The first `n` symbols; the whole input when there are no more than `n`. -/
def take (x : Input σ) (n : Nat) : Input σ :=
  ⟨x.symbols.take n, min n x.size, by simp [x.size_eq]⟩

/-- The input without its first symbol; the empty input has itself as its tail. -/
def tail (x : Input σ) : Input σ :=
  x.drop 1

/-- The input from its first symbol on that is not layout. -/
def skipLayout [Alphabet σ] (x : Input σ) : Input σ :=
  x.drop (x.symbols.takeWhile Alphabet.isLayout).length

/-- What follows one lexeme called `name`, when the input starts with it. -/
def strip? [Alphabet σ] [BEq σ] (x : Input σ) (name : String) : Option (Input σ) :=
  let lexeme : List σ := Alphabet.spell name
  if lexeme.isPrefixOf x.symbols then some (x.drop lexeme.length) else none

/-- The number of bytes of a text in UTF-8. -/
def utf8Size (x : Input Char) : Nat :=
  x.symbols.foldl (fun n c => n + c.utf8Size) 0

@[simp] theorem symbols_ofList (symbols : List σ) : (ofList symbols).symbols = symbols := rfl

@[simp] theorem symbols_drop (x : Input σ) (n : Nat) :
    (x.drop n).symbols = x.symbols.drop n := rfl

@[simp] theorem symbols_take (x : Input σ) (n : Nat) :
    (x.take n).symbols = x.symbols.take n := rfl

@[simp] theorem symbols_tail (x : Input σ) : x.tail.symbols = x.symbols.tail := by
  simp [tail]

@[simp] theorem size_take (x : Input σ) (n : Nat) : (x.take n).size = min n x.size := rfl

@[simp] theorem symbols_skipLayout [Alphabet σ] (x : Input σ) :
    x.skipLayout.symbols = x.symbols.dropWhile Alphabet.isLayout := by
  simp only [skipLayout, symbols_drop]
  generalize x.symbols = s
  induction s with
  | nil => rfl
  | cons c s ih => by_cases h : Alphabet.isLayout c <;> simp [h, ih]

theorem strip?_eq_some_iff [Alphabet σ] [DecidableEq σ] {x r : Input σ} {name : String} :
    x.strip? name = some r ↔ x.symbols = Alphabet.spell name ++ r.symbols := by
  simp only [strip?, Option.ite_none_right_eq_some, Option.some.injEq, List.isPrefixOf_iff_prefix]
  constructor
  · rintro ⟨⟨s, hs⟩, rfl⟩
    simp [← hs]
  · intro h
    refine ⟨⟨_, h.symm⟩, ext ?_⟩
    simp [h]

end Input

end AllParses
