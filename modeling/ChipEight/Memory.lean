import ChipEight.Bytes
import ChipEight.Fault
import ChipEight.Word

/-!
# Memory

4096 bytes.  The first 512 are set aside for the machine itself, program text starts after them.  A *span* is a run of
`len` bytes from `address` on, both of them 64-bit numbers; a span that does not lie inside memory is neither read nor
written.  That is a fault as long as 64 bits can name the last byte asked for.

* `Memory.read`, `Memory.write` : the bytes of a span and their replacement.
* `Memory.word` : the instruction word at an address.
-/

namespace ChipEight

/-- The number of bytes of memory. -/
abbrev Memory.size : Nat := 4096

/-- Where programs are loaded and started. -/
abbrev Memory.programStart : Nat := 512

/-- The bytes between `programStart` and the end: the longest program that fits. -/
abbrev Memory.programRoom : Nat := Memory.size - Memory.programStart

/-- The bytes of memory by address. -/
abbrev Memory := Bytes Memory.size

namespace Memory

/-- Why a span is neither read nor written. -/
inductive Denial where
  | fault (f : Fault)
  /-- The address of the last byte overflows, so there is no fault to name it: the thread that asks is lost. -/
  | overflow
  deriving DecidableEq, Repr

/-- A span outside memory is denied with the address of its last byte.  An empty span counts as one byte. -/
def outside (address : UInt64) (len : Nat) : Denial :=
  let last := address.toNat + (len - 1)
  if last < UInt64.size then .fault (.memoryOutOfBounds (.ofNat last)) else .overflow

def read (m : Memory) (address len : UInt64) : Except Denial (List UInt8) :=
  if address.toNat + len.toNat ≤ size then .ok (m.slice address.toNat len.toNat) else .error (outside address len.toNat)

/-- Memory after `bytes` were written at `address`. -/
def write (m : Memory) (address : UInt64) (bytes : List UInt8) : Except Denial Memory :=
  if address.toNat + bytes.length ≤ size then .ok (m.put address.toNat bytes)
  else .error (outside address bytes.length)

/-- The word at an address of 16 bits, whose second byte always has an address of 64. -/
def word (m : Memory) (a : UInt16) : Except Fault Word :=
  if h : a.toNat + 2 ≤ size then
    have h₀ : a.toNat < size := by omega
    have h₁ : a.toNat + 1 < size := by omega
    .ok (Word.ofBytes m[a.toNat] m[a.toNat + 1])
  else .error (.memoryOutOfBounds (a.toUInt64 + 1))

end Memory

end ChipEight
