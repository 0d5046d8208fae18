import ChipEight.Machine

/-!
# Saved images

An image holds a machine in 6204 bytes, words with the less significant byte first:

```text
   0  signature C8SS        4119  i
   4  version, 1            4121  call stack, 16 words
   5  memory                4153  sp
4101  pc                    4154  delay timer
4103  v                     4155  sound timer
                            4156  screen, a byte a cell
```

* `Image.encode` : the image of a machine.
* `Image.decode` : the machine of an image, or the first defect that it has.  Only images of well-formed machines are
  accepted.
-/

namespace ChipEight.Image

/-- The four letters an image starts with. -/
def signature : List UInt8 := [0x43, 0x38, 0x53, 0x53]

def version : UInt8 := 1

/-- The number of bytes of an image. -/
abbrev size : Nat := 6204

/-- What keeps bytes from being an image. -/
inductive Defect where
  | truncated (length : Nat)
  | trailing (excess : Nat)
  | signature
  | version (found : UInt8)
  | stackPointer (found : UInt8)
  | cell (found : UInt8)
  deriving DecidableEq, Repr

def Defect.message : Defect → String
  | .truncated n => "truncated: " ++ toString n ++ " of " ++ toString size ++ " bytes"
  | .trailing n => toString n ++ " trailing bytes"
  | .signature => "bad magic"
  | .version b => "unsupported version " ++ toString b.toNat
  | .stackPointer b => "stack pointer " ++ toString b.toNat ++ " out of range"
  | .cell b => "pixel value " ++ toString b.toNat ++ " is not 0 or 1"

/-- The two bytes of a word, the less significant first. -/
def wordBytes (w : UInt16) : List UInt8 := [w.toUInt8, (w / 256).toUInt8]

/-- The word of two bytes, the less significant first. -/
def wordOf (lo hi : UInt8) : UInt16 := lo.toUInt16 + hi.toUInt16 * 256

def encode (m : Machine) : List UInt8 :=
  signature ++ [version] ++ m.memory.toList ++ wordBytes m.pc ++ m.v.toList ++ wordBytes m.i ++
    m.stack.toList.flatMap wordBytes ++ [m.sp, m.delay, m.sound] ++ m.screen.toList

theorem length_encode (m : Machine) : (encode m).length = size := by
  simp [encode, signature, wordBytes, List.length_flatMap, List.map_const', Memory.size, Screen.size, Screen.width,
    Screen.height]

/-- The block of `n` bytes at an offset. -/
def block (bytes : List UInt8) (offset n : Nat) (h : offset + n ≤ bytes.length) : Bytes n :=
  ⟨((bytes.drop offset).take n).toArray, by simp; omega⟩

def byte (bytes : List UInt8) (offset : Nat) (h : offset < bytes.length) : UInt8 := bytes[offset]

def word (bytes : List UInt8) (offset : Nat) (h : offset + 1 < bytes.length) : UInt16 :=
  wordOf (byte bytes offset (by omega)) (byte bytes (offset + 1) h)

/-- Bytes of the right number, read at their offsets. -/
def layout (bytes : List UInt8) (h : bytes.length = 6204) : Machine where
  memory := block bytes 5 4096 (by omega)
  pc := word bytes 4101 (by omega)
  v := block bytes 4103 16 (by omega)
  i := word bytes 4119 (by omega)
  stack := Vector.ofFn fun k : Fin 16 => word bytes (4121 + 2 * k.val) (by omega)
  sp := byte bytes 4153 (by omega)
  delay := byte bytes 4154 (by omega)
  sound := byte bytes 4155 (by omega)
  screen := block bytes 4156 2048 (by omega)

/-- The machine of an image. -/
def decode (bytes : List UInt8) : Except Defect Machine :=
  if h : bytes.length = size then
    let found := byte bytes 4 (by rw [h]; decide)
    let m := layout bytes h
    if bytes.take 4 ≠ signature then .error .signature
    else if found ≠ version then .error (.version found)
    else if 16 < m.sp then .error (.stackPointer m.sp)
    else
      match m.screen.toList.find? (1 < ·) with
      | some b => .error (.cell b)
      | none => .ok m
  else if bytes.length < size then .error (.truncated bytes.length)
  else .error (.trailing (bytes.length - size))

end ChipEight.Image
