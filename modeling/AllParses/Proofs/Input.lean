import AllParses.Input
import Mathlib.Data.List.DropRight

/-!
# What is left of an input

Reading leaves a suffix of the input. Where something was consumed the suffix is a proper one, and
this is what recursions over inputs rest on. Skipping layout leaves a suffix too, and what is behind
layout has none in front. Texts are counted in characters and stored in bytes: they are cut where the
bytes of the counted characters end, and names are in front where their bytes are.
-/
namespace AllParses.Input

variable {σ : Type}

@[simp] theorem ofList_symbols (x : Input σ) : ofList x.symbols = x :=
  ext rfl

@[simp] theorem head?_ofList (symbols : List σ) : (ofList symbols).head? = symbols.head? := rfl

@[simp] theorem tail_ofList_cons (c : σ) (symbols : List σ) :
    (ofList (c :: symbols)).tail = ofList symbols :=
  ext (by simp)

@[simp] theorem ofList_inj {symbols more : List σ} : ofList symbols = ofList more ↔ symbols = more :=
  eq_iff

theorem head?_eq_some_iff {x : Input σ} {c : σ} :
    x.head? = some c ↔ ∃ rest : Input σ, x.symbols = c :: rest.symbols := by
  constructor
  · intro first
    exact ⟨x.tail, by rw [symbols_tail]; exact List.eq_cons_of_mem_head? first⟩
  · rintro ⟨rest, front⟩
    rw [head?, front]
    rfl

/-- What is taken from the front and what is dropped there make up the input. -/
theorem take_append_drop (x : Input σ) (n : Nat) :
    ofList ((x.take n).symbols ++ (x.drop n).symbols) = x := by
  rw [symbols_take, symbols_drop, List.take_append_drop, ofList_symbols]

theorem drop_drop (x : Input σ) (n m : Nat) : (x.drop n).drop m = x.drop (m + n) := by
  apply ext
  rw [symbols_drop, symbols_drop, symbols_drop, List.drop_drop, Nat.add_comm]

/-- What follows a name is a suffix, however symbols are compared. -/
theorem suffix_of_strip? [Alphabet σ] [BEq σ] {x rest : Input σ} {name : String}
    (stripped : x.strip? name = some rest) : rest.symbols <:+ x.symbols := by
  obtain ⟨-, same⟩ := Option.ite_none_right_eq_some.mp stripped
  obtain rfl := Option.some.inj same
  exact List.drop_suffix _ _

theorem strip?_eq_none_iff [Alphabet σ] [DecidableEq σ] {x : Input σ} {name : String} :
    x.strip? name = none ↔ ∀ rest : Input σ, x.symbols ≠ Alphabet.spell name ++ rest.symbols := by
  simp only [Option.eq_none_iff_forall_ne_some, ne_eq, strip?_eq_some_iff]

theorem size_le_of_suffix {x y : Input σ} (suffix : x.symbols <:+ y.symbols) : x.size ≤ y.size := by
  rw [x.size_eq, y.size_eq]
  exact suffix.length_le

/-- What is left of `y` behind one or more of its symbols. -/
structure ProperSuffix (x y : Input σ) : Prop where
  suffix : x.symbols <:+ y.symbols
  shorter : x.size < y.size

namespace ProperSuffix

variable {x y z : Input σ}

theorem trans (inner : x.ProperSuffix y) (outer : y.ProperSuffix z) : x.ProperSuffix z :=
  ⟨inner.suffix.trans outer.suffix, inner.shorter.trans outer.shorter⟩

theorem trans_suffix (proper : x.ProperSuffix y) (suffix : y.symbols <:+ z.symbols) :
    x.ProperSuffix z :=
  ⟨proper.suffix.trans suffix, proper.shorter.trans_le (size_le_of_suffix suffix)⟩

theorem of_suffix (suffix : x.symbols <:+ y.symbols) (proper : y.ProperSuffix z) :
    x.ProperSuffix z :=
  ⟨suffix.trans proper.suffix, Nat.lt_of_le_of_lt (size_le_of_suffix suffix) proper.shorter⟩

/-- Symbols taken from the front leave a proper suffix, if there are any. -/
theorem of_append {front : List σ} (some_symbol : front ≠ [])
    (split : y.symbols = front ++ x.symbols) : x.ProperSuffix y := by
  refine ⟨⟨front, split.symm⟩, ?_⟩
  have long := List.length_pos_iff.mpr some_symbol
  rw [x.size_eq, y.size_eq, split, List.length_append]
  omega

/-- A suffix other than the whole is a proper one. -/
theorem of_ne (suffix : x.symbols <:+ y.symbols) (different : x ≠ y) : x.ProperSuffix y := by
  refine ⟨suffix, lt_of_le_of_ne (size_le_of_suffix suffix) fun same => different ?_⟩
  rw [x.size_eq, y.size_eq] at same
  exact ext (suffix.eq_of_length same)

theorem of_cons {c : σ} (front : y.symbols = c :: x.symbols) : x.ProperSuffix y :=
  .of_append (List.cons_ne_nil c []) front

theorem not_isEmpty (proper : x.ProperSuffix y) : y.isEmpty = false := by
  have long : 0 < y.symbols.length := y.size_eq ▸ Nat.zero_lt_of_lt proper.shorter
  rw [isEmpty, List.isEmpty_eq_false_iff]
  exact List.length_pos_iff.mp long

end ProperSuffix

/-! ## Comparing what is left with the input

An input equals itself when all its symbols do. A suffix equals the whole only if it is the whole. -/

section Comparison

variable [BEq σ] {x y : Input σ}

theorem beq_eq_false_of_shorter (shorter : y.size < x.size) : (y == x) = false := by
  rw [beq_eq, beq_false_of_ne (Nat.ne_of_lt shorter), Bool.false_and]

theorem beq_self_iff : (x == x) = true ↔ ∀ c ∈ x.symbols, (c == c) = true := by
  rw [beq_eq, beq_self_eq_true, Bool.true_and]
  generalize x.symbols = symbols
  induction symbols with
  | nil => simp
  | cons c symbols ih => rw [List.cons_beq_cons, Bool.and_eq_true, ih, List.forall_mem_cons]

theorem beq_self_of_suffix (self : (x == x) = true) (suffix : y.symbols <:+ x.symbols) :
    (y == y) = true :=
  beq_self_iff.mpr fun c member => beq_self_iff.mp self c (suffix.subset member)

theorem eq_of_suffix_of_beq (suffix : y.symbols <:+ x.symbols) (same : (y == x) = true) : y = x := by
  by_contra different
  rw [beq_eq_false_of_shorter (ProperSuffix.of_ne suffix different).shorter] at same
  cases same

/-- One symbol, a number that is not a number, which differs from itself. -/
def notANumber : Input Float :=
  .ofList [0 / 0]

theorem notANumber_differs : ¬ notANumber == notANumber := by
  decide

end Comparison

section Layout

variable [Alphabet σ] {x y : Input σ}

theorem suffix_skipLayout (x : Input σ) : x.skipLayout.symbols <:+ x.symbols :=
  List.drop_suffix _ _

@[simp] theorem skipLayout_idem (x : Input σ) : x.skipLayout.skipLayout = x.skipLayout := by
  apply ext
  rw [symbols_skipLayout, symbols_skipLayout]
  exact List.dropWhile_idempotent _ _

theorem ProperSuffix.of_skipLayout (proper : x.ProperSuffix y.skipLayout) : x.ProperSuffix y :=
  proper.trans_suffix (suffix_skipLayout y)

end Layout

/-! ## Bytes -/

theorem utf8Size_eq (x : Input Char) : x.utf8Size = (String.ofList x.symbols).utf8ByteSize := by
  have from_any : ∀ (cs : List Char) (n : Nat),
      cs.foldl (fun n c => n + c.utf8Size) n = n + (String.ofList cs).utf8ByteSize := by
    intro cs
    induction cs with
    | nil => exact fun _ => rfl
    | cons c cs ih =>
      intro n
      rw [List.foldl_cons, ih, String.ofList_cons, String.utf8ByteSize_append,
        String.utf8ByteSize_singleton, Nat.add_assoc]
  rw [utf8Size, from_any, Nat.zero_add]

@[simp] theorem utf8Size_ofString (text : String) :
    (ofString text).utf8Size = text.utf8ByteSize := by
  rw [utf8Size_eq, ofString, symbols_ofList, String.ofList_toList]

theorem utf8Size_of_append {x y : Input Char} {front : List Char}
    (split : y.symbols = front ++ x.symbols) :
    y.utf8Size = (String.ofList front).utf8ByteSize + x.utf8Size := by
  rw [utf8Size_eq, utf8Size_eq, split, String.ofList_append, String.utf8ByteSize_append]

theorem utf8Size_pos {x : Input Char} (left : x.isEmpty = false) : 0 < x.utf8Size := by
  obtain ⟨c, cs, front⟩ := List.exists_cons_of_ne_nil (List.isEmpty_eq_false_iff.mp left)
  rw [utf8Size_eq, front, String.ofList_cons, String.utf8ByteSize_append,
    String.utf8ByteSize_singleton]
  exact Nat.add_pos_left c.utf8Size_pos _

/-- The bytes of a text. -/
def utf8 (x : Input Char) : ByteArray :=
  (String.ofList x.symbols).toByteArray

theorem size_utf8 (x : Input Char) : x.utf8.size = x.utf8Size := by
  rw [utf8Size_eq]
  rfl

theorem utf8_of_append {x : Input Char} {front rest : List Char}
    (split : x.symbols = front ++ rest) :
    x.utf8 = (String.ofList front).toByteArray ++ (String.ofList rest).toByteArray := by
  rw [utf8, split, String.ofList_append, String.toByteArray_append]

/-- A text is cut at the byte where the characters that are taken end. -/
theorem utf8_take_append_drop (x : Input Char) (n : Nat) :
    x.utf8 = (x.take n).utf8 ++ (x.drop n).utf8 :=
  utf8_of_append (List.take_append_drop n x.symbols).symm

/-- The bytes of a name stand in front of those of a text exactly where the name can be stripped, and
what is behind the bytes is the text that is left. -/
theorem strip?_iff_utf8 (x : Input Char) (name : String) (bytes : ByteArray) :
    x.utf8 = name.toByteArray ++ bytes ↔ ∃ rest, x.strip? name = some rest ∧ rest.utf8 = bytes := by
  have stripped : ∀ rest, x.strip? name = some rest → x.utf8 = name.toByteArray ++ rest.utf8 := by
    intro rest found
    have split := utf8_of_append (strip?_eq_some_iff.mp found)
    rwa [Alphabet.spell, instAlphabetChar, String.ofList_toList] at split
  constructor
  · intro front
    have encoded : name.toList.utf8Encode ++ bytes = x.symbols.utf8Encode := by
      rw [String.utf8Encode_toList, ← front, utf8, String.toByteArray_ofList]
    obtain ⟨symbols, split⟩ := List.isPrefix_of_utf8Encode_append_eq_utf8Encode bytes encoded
    have found : x.strip? name = some (ofList symbols) := strip?_eq_some_iff.mpr split.symm
    rw [stripped _ found] at front
    exact ⟨ofList symbols, found, (ByteArray.append_right_inj _).mp front⟩
  · rintro ⟨rest, found, rfl⟩
    exact stripped rest found

end AllParses.Input
