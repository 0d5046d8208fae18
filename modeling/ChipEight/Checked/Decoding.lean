import ChipEight.Checked
import ChipEight.Image

/-!
# Checked decoding

Images read from their first byte on, with nothing taken for granted.  A cursor hands out the next bytes and passes over
them; where fewer are left than it is asked for, that is a hazard.

* `Cursor.take`, `byte`, `word`, `block`, `words` : the next bytes, as what they stand for.
* `decode` : the machine of an image or the first defect that it has, or the first hazard.
-/

namespace ChipEight.Checked

/-- What is read of the bytes that are left; the others are left for what is read next. -/
abbrev Cursor := StateT (List UInt8) Risky

namespace Cursor

/-- The next `n` bytes. -/
def take (n : Nat) : Cursor (List UInt8) := fun bytes =>
  if n ≤ bytes.length then .ok (bytes.take n, bytes.drop n) else .error (.part bytes.length 0 n)

def byte : Cursor UInt8 := do nth (← take 1) 0

/-- The next word, the less significant byte first. -/
def word : Cursor UInt16 := do
  let bytes ← take 2
  return Image.wordOf (← nth bytes 0) (← nth bytes 1)

/-- The next `n` bytes, copied into a block. -/
def block (n : Nat) : Cursor (Bytes n) := do copy (Vector.replicate n 0) 0 n (← take n)

/-- The next `n` words. -/
def words : (n : Nat) → Cursor (Vector UInt16 n)
  | 0 => return #v[]
  | n + 1 => do
    let ws ← words n
    return ws.push (← word)

/-- The machine of as many bytes as an image has, or the first defect among them. -/
def machine : Cursor (Except Image.Defect Machine) := do
  if (← take 4) ≠ Image.signature then return .error .signature
  let found ← byte
  if found ≠ Image.version then return .error (.version found)
  let memory ← block Memory.size
  let pc ← word
  let v ← block 16
  let i ← word
  let stack ← words 16
  let sp ← byte
  if 16 < sp then return .error (.stackPointer sp)
  let delay ← byte
  let sound ← byte
  let screen ← block Screen.size
  match screen.toList.find? (1 < ·) with
  | some b => return .error (.cell b)
  | none => return .ok { v, i, pc, sp, stack, memory, delay, sound, screen }

end Cursor

/-- The machine of an image. -/
def decode (bytes : List UInt8) : Risky (Except Image.Defect Machine) := do
  if bytes.length < Image.size then return .error (.truncated bytes.length)
  if Image.size < bytes.length then return .error (.trailing (← minusIndex bytes.length Image.size))
  Cursor.machine.run' bytes

end ChipEight.Checked
