import ChipEight.Text.Hex

/-!
# Faults

A fault ends a run.  The two stack faults name the address of the instruction at fault, a memory fault the last byte
that was asked for.
-/

namespace ChipEight

/-- Why a run cannot go on. -/
inductive Fault where
  | stackOverflow (pc : UInt16)
  | stackUnderflow (pc : UInt16)
  | memoryOutOfBounds (address : UInt64)
  deriving DecidableEq, Repr

def Fault.message : Fault → String
  | .stackOverflow pc =>
    "stack overflow: call at " ++ Text.Hex.address 3 pc.toNat ++ " with every return slot in use"
  | .stackUnderflow pc =>
    "stack underflow: return at " ++ Text.Hex.address 3 pc.toNat ++ " with an empty call stack"
  | .memoryOutOfBounds a => "memory access out of bounds at " ++ Text.Hex.address 4 a.toNat

end ChipEight
