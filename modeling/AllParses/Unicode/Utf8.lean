import AllParses.Unicode.Ranges

/-!
# UTF-8

The byte sequences of a class of characters.  A sequence of byte ranges stands for all sequences of
bytes that choose one byte from each range.
-/

namespace AllParses.Unicode.Utf8

/-- An inclusive range of bytes. -/
abbrev ByteRange := Nat × Nat

/-- The number of values that `n` continuation bytes can take. -/
def span (n : Nat) : Nat :=
  Nat.pow 64 n

/-- The sequences of a byte, which is `marker` more than its value, and `n` continuation bytes,
whose values together run from `first` to `last`.  The longest stretches in which every continuation
byte is free become one sequence each. -/
def sequences (marker : Nat) : (n : Nat) → (first last : Nat) → List (List ByteRange)
  | 0, first, last => [[(marker + first, marker + last)]]
  | n + 1, first, last =>
    let unit := span (n + 1)
    let a := first / unit
    let b := last / unit
    let inside (value lo hi : Nat) : List (List ByteRange) :=
      (sequences 0x80 n lo hi).map ((marker + value, marker + value) :: ·)
    if a = b then
      inside a (first % unit) (last % unit)
    else
      let wholeFrom := if first % unit = 0 then a else a + 1
      let wholeTo := if last % unit = unit - 1 then b + 1 else b
      let head := if first % unit = 0 then [] else inside a (first % unit) (unit - 1)
      let whole :=
        if wholeFrom < wholeTo then
          [(marker + wholeFrom, marker + wholeTo - 1) :: List.replicate (n + 1) (0x80, 0xbf)]
        else []
      let tail := if last % unit = unit - 1 then [] else inside b 0 (last % unit)
      head ++ whole ++ tail

/-- The blocks of characters whose sequences have the same form: the first and last code point, what
the first byte adds to its value, and the number of continuation bytes.  Surrogates are in no
block. -/
def blocks : List (Nat × Nat × Nat × Nat) :=
  [(0, 0x7f, 0, 0), (0x80, 0x7ff, 0xc0, 1), (0x800, 0xd7ff, 0xe0, 2), (0xe000, 0xffff, 0xe0, 2),
    (0x10000, 0x10ffff, 0xf0, 3)]

/-- The byte sequences of a class, in increasing order. -/
def ofRanges (ranges : Ranges) : List (List ByteRange) :=
  ranges.flatMap fun (first, last) =>
    blocks.flatMap fun (lo, hi, marker, n) =>
      if first ≤ hi && lo ≤ last then sequences marker n (max first lo) (min last hi) else []

/-- The bytes of a character. -/
def ofChar (c : Char) : List Nat :=
  (ofRanges [(c.toNat, c.toNat)]).flatMap fun s => s.map Prod.fst

end AllParses.Unicode.Utf8
