/-!
# Hexadecimal numerals

* `upper width n` : the base-sixteen numeral of `n` with capital digits, filled up with zeros on the left to at least
  `width` digits; a longer numeral is never cut.
* `address width n` : the same behind `0x`, the form in which addresses are reported.
-/

namespace ChipEight.Text.Hex

/-- The base-sixteen numeral of `n`, capital digits, at least `width` of them. -/
def upper (width n : Nat) : String :=
  let digits := (Nat.toDigits 16 n).map Char.toUpper
  String.ofList (List.replicate (width - digits.length) '0' ++ digits)

/-- An address as messages show it: `0x` and at least `width` digits. -/
def address (width n : Nat) : String := "0x" ++ upper width n

end ChipEight.Text.Hex
