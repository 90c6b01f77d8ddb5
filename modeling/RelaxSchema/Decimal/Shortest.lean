/-!
# Shortest decimals

The decimal with the fewest digits that reads back as a given binary number. A positive double is
`mantissa * 2 ^ exponent`; every real of an interval around it rounds to it, the ends of the
interval included if the mantissa is even. The coarsest decimal grid with a point in the interval is
searched for, and of two points on it the nearer one is taken.
-/

namespace RelaxSchema

/-- A positive binary number and the interval of the reals that round to it. -/
structure BinaryNumber where
  /-- The mantissa. -/
  mantissa : Nat
  /-- The exponent of two. -/
  exponent : Int
  /-- Whether the next smaller number has a smaller exponent, and so is nearer. -/
  atBoundary : Bool
  deriving Repr, DecidableEq

/-- A decimal: `digits * 10 ^ exponent`. -/
structure Decimal where
  /-- The digits as a number. -/
  digits : Nat
  /-- The exponent of ten. -/
  exponent : Int
  deriving Repr, DecidableEq

namespace BinaryNumber

/-- The binary number of the bits of a positive finite double. -/
def ofBits (bits : Nat) : BinaryNumber :=
  let unit : Nat := 0x10000000000000
  let fraction : Nat := bits % unit
  let biased : Nat := bits / unit % 2048
  if biased = 0 then ⟨fraction, -1074, false⟩
  else ⟨fraction + unit, (biased : Int) - 1075, fraction == 0 && biased != 1⟩

/-- A quarter of the unit of a binary number in units of a decimal grid, as a quotient. -/
def quarterUnit (exponent grid : Int) : Nat × Nat :=
  (Nat.pow 2 (exponent - 2).toNat * Nat.pow 10 (-grid).toNat,
    Nat.pow 2 (2 - exponent).toNat * Nat.pow 10 grid.toNat)

/-- The point of the grid of `10 ^ grid` that reads back as a binary number and is nearest to it. Of
two points at the same distance the even one is taken. -/
def pointOn? (binary : BinaryNumber) (grid : Int) : Option Nat :=
  let (up, down) := quarterUnit binary.exponent grid
  let value := 4 * binary.mantissa * up
  let low := (4 * binary.mantissa - if binary.atBoundary then 1 else 2) * up
  let high := (4 * binary.mantissa + 2) * up
  let closed := binary.mantissa % 2 == 0
  -- An even mantissa wins the ties at both ends of the interval.
  let inside (point : Nat) : Bool :=
    let place := point * down
    if closed then low ≤ place && place ≤ high else low < place && place < high
  -- If any point of the grid is inside, so is one of the two neighbours of the value.
  let below := value / down
  let above := below + 1
  let toBelow := value - below * down
  let toAbove := above * down - value
  if inside below && inside above then
    if toBelow < toAbove || (toBelow = toAbove && below % 2 = 0) then some below else some above
  else if inside below then some below
  else if inside above then some above
  else none

/-- The first hit on `fuel` grids, each ten times as fine as the one before. -/
def search (binary : BinaryNumber) : Nat → Int → Decimal
  | 0, grid => ⟨binary.mantissa, grid⟩
  | fuel + 1, grid =>
    match pointOn? binary grid with
    | some digits => ⟨digits, grid⟩
    | none => search binary fuel (grid - 1)

/-- The shortest decimal that reads back as a positive double, which is less than `10 ^ 309` and a
multiple of `10 ^ (-1074)`. -/
def shortest (binary : BinaryNumber) : Decimal := search binary 1400 309

end BinaryNumber

end RelaxSchema
