/-!
# Binary floating point of 32 bits

A number is a sign bit, eight bits of exponent and 23 bits of fraction.  Every finite number is a whole multiple of
`2 ^ (-149)`, so its magnitude is kept as the number of these units and sums are exact before they are rounded.

* `units` : the magnitude of a finite number.
* `round` : the number nearest to a magnitude, the even one of two that are equally near.
* `add` : the rounded sum.
* `fract` : what is left over when whole ones are taken away; it keeps the sign.
-/

namespace ChipEight

/-- A floating-point number as its bits. -/
structure Binary32 where
  bits : UInt32
  deriving DecidableEq, Repr

namespace Binary32

/-- The number with a one in bit `n` only: two to the `n`. -/
def bit (n : Nat) : Nat := 1 <<< n

/-- The number of units in one. -/
def one : Nat := bit 149

/-- The fraction field with the exponent field above it: everything but the sign. -/
def body (x : Binary32) : Nat := x.bits.toNat % bit 31

def negative (x : Binary32) : Bool := bit 31 ≤ x.bits.toNat

/-- The body of the infinities; greater bodies belong to numbers that are none. -/
def infinity : Nat := 0x7F800000

def isNaN (x : Binary32) : Bool := infinity < x.body

def isFinite (x : Binary32) : Bool := x.body < infinity

/-- The magnitude of a finite number in units. -/
def units (x : Binary32) : Nat :=
  let e := x.body / bit 23
  let f := x.body % bit 23
  if e = 0 then f else (f + bit 23) * bit (e - 1)

/-- The number with a sign and a body. -/
def ofBody (negative : Bool) (body : Nat) : Binary32 :=
  { bits := .ofNat (body + if negative then bit 31 else 0) }

/-- The body of the number nearest to `k` units.  Up to 24 bits are held exactly; of a longer magnitude the 24 leading
bits are kept, rounded to the nearest and at a tie to the even, and a carry moves the exponent up by itself. -/
def round (k : Nat) : Nat :=
  if k < bit 24 then k
  else
    let shift := Nat.log2 k - 23
    let q := k / bit shift
    let r := k % bit shift
    let half := bit (shift - 1)
    let up := half < r || (r == half && q % 2 == 1)
    min infinity (shift * bit 23 + q + if up then 1 else 0)

/-- What an operation without a result answers. -/
def invalid : Binary32 := { bits := 0xFFC00000 }

/-- A number that is none, marked as seen. -/
def quiet (x : Binary32) : Binary32 := { bits := x.bits ||| 0x00400000 }

def add (x y : Binary32) : Binary32 :=
  if x.isNaN then x.quiet
  else if y.isNaN then y.quiet
  else if !x.isFinite && !y.isFinite then if x.negative == y.negative then x else invalid
  else if !x.isFinite then x
  else if !y.isFinite then y
  else if x.negative == y.negative then ofBody x.negative (round (x.units + y.units))
  else if x.units = y.units then ofBody false 0
  else if y.units < x.units then ofBody x.negative (round (x.units - y.units))
  else ofBody y.negative (round (y.units - x.units))

/-- The number less as many whole ones as its magnitude has. -/
def fract (x : Binary32) : Binary32 :=
  if x.isNaN then x.quiet
  else if !x.isFinite then invalid
  else ofBody x.negative (round (x.units % one))

/-- Whether the number is at most one half. -/
def atMostHalf (x : Binary32) : Bool :=
  !x.isNaN && (x.negative || (x.isFinite && 2 * x.units ≤ one))

end Binary32

end ChipEight
