/-!
# Blocks of bytes

A block has a fixed number of bytes.

* `Bytes.slice` : a run of bytes of the block.
* `Bytes.put` : the block with a run of bytes replaced; `getElem_put` says which byte is then where.
-/

namespace ChipEight

/-- A block of `n` bytes. -/
abbrev Bytes (n : Nat) := Vector UInt8 n

namespace Bytes

variable {n : Nat}

/-- The `len` bytes from `start` on, as far as they are inside the block. -/
def slice (m : Bytes n) (start len : Nat) : List UInt8 := (m.extract start (start + len)).toList

/-- Puts `bytes` at `start` and after; what would fall outside the block is dropped. -/
def put (m : Bytes n) (start : Nat) : List UInt8 → Bytes n
  | [] => m
  | b :: bytes => put (m.setIfInBounds start b) (start + 1) bytes

theorem get_eq_getElem (m : Bytes n) (k : Fin n) : m.get k = m[k.val] := rfl

/-- A byte that was set is read back, and no other byte changes. -/
theorem get_setIfInBounds (m : Bytes n) (j k : Fin n) (b : UInt8) :
    Vector.get (m.setIfInBounds j b) k = if j = k then b else m.get k := by
  simp only [get_eq_getElem, Vector.getElem_setIfInBounds k.isLt, Fin.ext_iff]

/-- A slice is cut off at the end of the block. -/
@[simp] theorem length_slice (m : Bytes n) (start len : Nat) :
    (m.slice start len).length = min (start + len) n - start := by
  simp [slice]

theorem getElem_slice (m : Bytes n) {start len k : Nat} (h : k < (m.slice start len).length) (hk : start + k < n) :
    (m.slice start len)[k] = m[start + k] := by
  simp [slice]

/-- Bytes are put one after the other; the bytes before them and behind them stay. -/
theorem getElem_put (m : Bytes n) (start : Nat) (bytes : List UInt8) (k : Nat) (h : k < n) :
    (m.put start bytes)[k] = if start ≤ k then bytes[k - start]?.getD m[k] else m[k] := by
  induction bytes generalizing m start with
  | nil => simp [put]
  | cons b bytes ih =>
    rw [put, ih, Vector.getElem_setIfInBounds h]
    obtain h₁ | h₁ | h₁ := Nat.lt_trichotomy start k
    · have h₂ : k - start = k - (start + 1) + 1 := by omega
      simp [h₂, Nat.le_of_lt h₁, Nat.succ_le_of_lt h₁, Nat.ne_of_lt h₁]
    · subst h₁; rw [if_neg (by omega)]; simp
    · simp [show ¬ start + 1 ≤ k by omega, show ¬ start ≤ k by omega, Nat.ne_of_gt h₁]

end Bytes

end ChipEight
