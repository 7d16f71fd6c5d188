/-!
# Rounding to double precision

A decimal is brought into double precision in two steps, each of which rounds to the nearest number
of 53 bits, on a tie to the even one: first its digits and the power of ten, then their product.  So
the result may differ from the decimal rounded once.  Only numbers of at least one are needed, and
all that is asked is whether they are too large.
-/

namespace AllParses.Json

/-- The nearest number of 53 significant bits, on a tie the even one. -/
def roundDouble (n : Nat) : Nat :=
  if n < 0x20000000000000 then n
  else
    let unit := Nat.pow 2 (n.log2 - 52)
    let below := n / unit
    let excess := 2 * (n % unit)
    let up := unit < excess || (excess = unit && below % 2 = 1)
    (if up then below + 1 else below) * unit

/-- The least power of two that is too large for double precision. -/
def doubleBound : Nat := Nat.pow 2 1024

/-- The greatest exponent of a power of ten in double precision. -/
def maxDoublePower : Nat := 308

/-- Whether `n` times the given power of ten is too large for double precision. -/
def overflowsDouble (n : Nat) (power : Int) : Bool :=
  match n, power with
  | 0, _ => false
  | _, .negSucc _ => false
  | n, .ofNat power =>
    maxDoublePower < power ||
      doubleBound ≤ roundDouble (roundDouble n * roundDouble (Nat.pow 10 power))

end AllParses.Json
