import ChipEight.Machine

/-!
# Spans of memory

A span that lies inside memory is read and written; one that does not is a fault that names the exact address of its
last byte (`Memory.outside_eq`), as long as there is such an address.  The spans that instructions work on start at most
at the last byte of memory (`Processor.toNat_address`), so their ends never pass what an address can name
(`Processor.read_eq_overrun`, `Processor.write_eq_overrun`).
-/

namespace ChipEight

theorem Processor.toNat_address (p : Processor) : p.address.toNat = p.i.toNat % 4096 := by
  unfold address
  rw [UInt16.toNat_toUInt64, UInt16.toNat_mod]
  rfl

/-- Spans of registers and sprites end long before addresses do. -/
theorem Processor.address_add_lt (p : Processor) {len : Nat} (h : len ≤ 16) :
    p.address.toNat + len < UInt64.size := by
  have hlt := Nat.mod_lt p.i.toNat (y := 4096) (by decide)
  rw [p.toNat_address, UInt64.size]
  omega

theorem Processor.length_take_registers (p : Processor) (x : Digit) :
    (p.v.toList.take (x.val + 1)).length = x.val + 1 := by
  rw [List.length_take, Vector.length_toList]
  omega

namespace Memory

variable {address : UInt64} {len : Nat}

theorem toNat_len (h : address.toNat + len < UInt64.size) : (UInt64.ofNat len).toNat = len :=
  UInt64.toNat_ofNat_of_lt' (Nat.lt_of_le_of_lt (Nat.le_add_left len _) h)

theorem outside_eq (h : address.toNat + len < UInt64.size) :
    outside address len = .fault (.memoryOutOfBounds (.ofNat (address.toNat + (len - 1)))) := by
  refine if_pos ?_
  omega

variable (m : Memory)

theorem read_of_le (h : address.toNat + len ≤ size) :
    m.read address (.ofNat len) = .ok (m.slice address.toNat len) := by
  unfold read
  rw [toNat_len (Nat.lt_of_le_of_lt h (by decide))]
  exact if_pos h

theorem read_of_lt (h : address.toNat + len < UInt64.size) (hout : size < address.toNat + len) :
    m.read address (.ofNat len) = .error (.fault (.memoryOutOfBounds (.ofNat (address.toNat + (len - 1))))) := by
  unfold read
  rw [toNat_len h, outside_eq h]
  exact if_neg (Nat.not_le.mpr hout)

theorem write_of_le {bytes : List UInt8} (h : address.toNat + bytes.length ≤ size) :
    m.write address bytes = .ok (m.put address.toNat bytes) := if_pos h

theorem write_of_lt {bytes : List UInt8} (h : address.toNat + bytes.length < UInt64.size)
    (hout : size < address.toNat + bytes.length) :
    m.write address bytes = .error (.fault (.memoryOutOfBounds (.ofNat (address.toNat + (bytes.length - 1))))) := by
  unfold write
  rw [outside_eq h]
  exact if_neg (Nat.not_le.mpr hout)

theorem toNat_add_two_lt (a : UInt16) : a.toNat + 2 < UInt64.size := by
  have ha := a.toNat_lt
  rw [UInt64.size]
  omega

theorem word_of_lt {a : UInt16} (hout : size < a.toNat + 2) :
    m.word a = .error (.memoryOutOfBounds (.ofNat (a.toNat + 1))) := by
  have hlast : a.toUInt64 + 1 = .ofNat (a.toNat + 1) := by
    rw [← UInt64.toNat_inj, UInt64.toNat_add, UInt16.toNat_toUInt64, UInt64.toNat_ofNat']
    rfl
  unfold word
  rw [dif_neg (Nat.not_le.mpr hout), hlast]

end Memory

/-! ### Spans that the index register points at -/

namespace Processor

/-- The fault of the `len` bytes that the index register points at, unless all lie inside memory. -/
def overrun? (p : Processor) (len : Nat) : Option Fault :=
  if Memory.size < p.i.toNat % 4096 + len then
    some (.memoryOutOfBounds (.ofNat (p.i.toNat % 4096 + (len - 1))))
  else none

variable (p : Processor)

theorem read_eq_overrun (len : Nat) (h : len ≤ 16) :
    p.memory.read p.address (.ofNat len) =
      match p.overrun? len with
      | some f => .error (.fault f)
      | none => .ok (p.memory.slice p.address.toNat len) := by
  unfold overrun?
  rw [← p.toNat_address]
  by_cases hout : Memory.size < p.address.toNat + len
  · rw [if_pos hout]
    exact Memory.read_of_lt p.memory (p.address_add_lt h) hout
  · rw [if_neg hout]
    exact Memory.read_of_le p.memory (Nat.not_lt.mp hout)

theorem write_eq_overrun (bytes : List UInt8) {len : Nat} (hlen : bytes.length = len) (h : len ≤ 16) :
    p.memory.write p.address bytes =
      match p.overrun? len with
      | some f => .error (.fault f)
      | none => .ok (p.memory.put p.address.toNat bytes) := by
  subst hlen
  unfold overrun?
  rw [← p.toNat_address]
  by_cases hout : Memory.size < p.address.toNat + bytes.length
  · rw [if_pos hout]
    exact Memory.write_of_lt p.memory (p.address_add_lt h) hout
  · rw [if_neg hout]
    exact Memory.write_of_le p.memory (Nat.not_lt.mp hout)

theorem length_slice_address {len : Nat} (h : p.overrun? len = none) :
    (p.memory.slice p.address.toNat len).length = len := by
  unfold overrun? at h
  rw [Bytes.length_slice, p.toNat_address]
  split at h
  · cases h
  · omega

theorem eq_of_overrun? {p : Processor} {len : Nat} {f : Fault} (h : p.overrun? len = some f) :
    4096 < p.i.toNat % 4096 + len ∧ f = .memoryOutOfBounds (.ofNat (p.i.toNat % 4096 + (len - 1))) := by
  unfold overrun? at h
  split at h
  · next hout =>
    cases h
    exact ⟨hout, rfl⟩
  · cases h

end Processor

end ChipEight
