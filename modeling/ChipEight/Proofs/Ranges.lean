import ChipEight.Proofs.Dumps

/-!
# Spans at any address

Address and length of a span are any two numbers of 64 bits (`State::bytes`, `State::bytes_mut`).  Whether a span lies
inside memory is decided on their exact sum.  The address in the fault of one that does not is a sum too, and that one
has to fit into 64 bits.

* `Memory.last` : the last byte that a span asks for.
* `Memory.Shows`, `Memory.Takes` : what reading and writing a span that lies inside memory come to.
* `Memory.spans_exact` : a span outside memory is a fault that names its last byte, unless the address of that byte
  overflows, and then, and only then, the overflow.
-/

namespace ChipEight

namespace Memory

/-- The address of the last byte that a span asks for, inside memory or not.  An empty span counts as one byte. -/
def last (address len : Nat) : Nat := address + max len 1 - 1

/-- These are the bytes of a span, in their order. -/
structure Shows (m : Memory) (address len : Nat) (bytes : List UInt8) : Prop where
  length : bytes.length = len
  byte (j : Nat) : j < len → bytes[j]? = m[address + j]?

/-- These bytes have been written where the span is, and nothing elsewhere. -/
def Takes (m : Memory) (address : Nat) (bytes : List UInt8) (m' : Memory) : Prop :=
  ∀ k : Nat, m'[k]? = if address ≤ k ∧ k < address + bytes.length then bytes[k - address]? else m[k]?

/-! ### Spans inside memory -/

variable {m m' : Memory} {address len : Nat} {bytes : List UInt8}

theorem shows_slice (m : Memory) (h : address + len ≤ size) : m.Shows address len (m.slice address len) := by
  refine ⟨?_, fun j hj => Bytes.getElem?_slice m address len h hj⟩
  rw [Bytes.length_slice]
  omega

theorem Shows.unique {bytes' : List UInt8} (h : m.Shows address len bytes) (h' : m.Shows address len bytes') :
    bytes' = bytes := by
  refine List.ext_getElem? fun j => ?_
  rcases Nat.lt_or_ge j len with hj | hj
  · rw [h.byte j hj, h'.byte j hj]
  · rw [List.getElem?_eq_none (by rwa [h'.length]), List.getElem?_eq_none (by rwa [h.length])]

theorem takes_put (m : Memory) (h : address + bytes.length ≤ size) : m.Takes address bytes (m.put address bytes) := by
  intro k
  split
  case isTrue hin =>
    have hput := Bytes.getElem?_put m address bytes (j := k - address) h (by omega)
    rwa [Nat.add_sub_cancel' hin.1] at hput
  case isFalse hout => exact Bytes.getElem?_put_of_outside m (by omega)

theorem Takes.unique {m'' : Memory} (h : m.Takes address bytes m') (h' : m.Takes address bytes m'') : m'' = m' :=
  Bytes.ext fun k => (h' k).trans (h k).symm

/-- What is written is read back where the spans overlap; the rest is what was there. -/
theorem Takes.shows {address' len' : Nat} {old new : List UInt8} (h : m.Takes address bytes m')
    (hold : m.Shows address' len' old) (hnew : m'.Shows address' len' new) (j : Nat) (hj : j < len') :
    new[j]? = if address ≤ address' + j ∧ address' + j < address + bytes.length then bytes[address' + j - address]?
      else old[j]? := by
  rw [hnew.byte j hj, hold.byte j hj]
  exact h (address' + j)

end Memory

/-! ### Reading and writing -/

namespace Memory

/-- What comes of a span: such a result just when the span lies inside memory, else the fault that names its last byte,
unless 64 bits cannot name it. -/
structure Settles {α : Type} (address len : Nat) (Good : α → Prop) (r : Except Denial α) : Prop where
  ok_iff (x : α) : r = .ok x ↔ address + len ≤ 4096 ∧ Good x
  fault_iff (f : Fault) : r = .error (.fault f) ↔
    4096 < address + len ∧ ∃ a : UInt64, a.toNat = last address len ∧ f = .memoryOutOfBounds a
  overflow_iff : r = .error .overflow ↔ UInt64.size ≤ last address len

theorem last_eq (address len : Nat) : last address len = address + (len - 1) := by
  unfold last
  omega

theorem last_lt_of_le {address len : Nat} (h : address + len ≤ 4096) : last address len < UInt64.size := by
  unfold last UInt64.size
  omega

theorem lt_of_size_le_last {address len : Nat} (h : UInt64.size ≤ last address len) : 4096 < address + len :=
  Nat.not_le.mp fun hle => Nat.not_lt.mpr h (last_lt_of_le hle)

theorem outside_eq_ite (address : UInt64) (len : Nat) :
    outside address len =
      if last address.toNat len < UInt64.size then .fault (.memoryOutOfBounds (.ofNat (last address.toNat len)))
      else .overflow := by
  rw [last_eq]
  rfl

section

variable {α : Type} {address : UInt64} {len : Nat} {Good : α → Prop} {r : Except Denial α}

theorem Settles.of_inside {x : α} (hin : address.toNat + len ≤ 4096) (hr : r = .ok x) (hgood : Good x)
    (hunique : ∀ y, Good y → y = x) : Settles address.toNat len Good r := by
  subst hr
  refine ⟨fun y => ?_, fun f => ⟨nofun, fun h => absurd h.1 (Nat.not_lt.mpr hin)⟩, nofun, fun h => ?_⟩
  · rw [Except.ok.injEq]
    constructor
    · rintro rfl
      exact ⟨hin, hgood⟩
    · intro h
      exact (hunique y h.2).symm
  · exact absurd hin (Nat.not_le.mpr (lt_of_size_le_last h))

theorem Settles.of_outside (hout : 4096 < address.toNat + len) (hr : r = .error (outside address len)) :
    Settles address.toNat len Good r := by
  subst hr
  rw [outside_eq_ite]
  refine ⟨fun y => ⟨nofun, fun h => absurd h.1 (Nat.not_le.mpr hout)⟩, fun f => ?_, ?_⟩
  · split
    case isTrue hfits =>
      have hexact : (UInt64.ofNat (last address.toNat len)).toNat = last address.toNat len :=
        UInt64.toNat_ofNat_of_lt' hfits
      constructor
      · rintro ⟨⟩
        exact ⟨hout, _, hexact, rfl⟩
      · rintro ⟨-, a, ha, rfl⟩
        rw [UInt64.toNat_inj.mp (ha.trans hexact.symm)]
    case isFalse hlong =>
      refine ⟨nofun, ?_⟩
      rintro ⟨-, a, ha, -⟩
      exact absurd (ha ▸ a.toNat_lt) hlong
  · split
    case isTrue hfits => exact ⟨nofun, fun h => absurd hfits (Nat.not_lt.mpr h)⟩
    case isFalse hlong => exact ⟨fun _ => Nat.not_lt.mp hlong, fun _ => rfl⟩

end

variable (m : Memory) (address len : UInt64)

theorem read_settles :
    Settles address.toNat len.toNat (m.Shows address.toNat len.toNat) (m.read address len) := by
  rcases Nat.lt_or_ge 4096 (address.toNat + len.toNat) with hout | hin
  · exact .of_outside hout (if_neg (Nat.not_le.mpr hout))
  · have hshows := shows_slice m hin
    exact .of_inside hin (if_pos hin) hshows fun _ h => hshows.unique h

theorem write_settles (bytes : List UInt8) :
    Settles address.toNat bytes.length (m.Takes address.toNat bytes) (m.write address bytes) := by
  rcases Nat.lt_or_ge 4096 (address.toNat + bytes.length) with hout | hin
  · exact .of_outside hout (if_neg (Nat.not_le.mpr hout))
  · have htakes := takes_put m hin
    exact .of_inside hin (if_pos hin) htakes fun _ h => htakes.unique h

/-- **Spans, wherever they are.**  Reading and writing give a result just when the exact sum of address and length is at
most 4096, and it is the right one; every other span gives the fault that names the exact address of the last byte asked
for, if 64 bits can name it, and else, and only else, the sum overflows.  Bytes that were written are read back where two
spans overlap, and the old bytes elsewhere. -/
theorem spans_exact (m : Memory) (address : UInt64) :
    (∀ len : UInt64, Settles address.toNat len.toNat (m.Shows address.toNat len.toNat) (m.read address len)) ∧
    ∀ bytes : List UInt8,
      Settles address.toNat bytes.length (m.Takes address.toNat bytes) (m.write address bytes) ∧
      ∀ (m' : Memory), m.write address bytes = .ok m' → ∀ (address' len' : UInt64) (old : List UInt8),
        m.read address' len' = .ok old → ∃ new, m'.read address' len' = .ok new ∧ new.length = old.length ∧
          ∀ j < len'.toNat, new[j]? =
            if address.toNat ≤ address'.toNat + j ∧ address'.toNat + j < address.toNat + bytes.length then
              bytes[address'.toNat + j - address.toNat]?
            else old[j]? := by
  refine ⟨read_settles m address, fun bytes => ⟨write_settles m address bytes,
    fun m' hwrite address' len' old hread => ?_⟩⟩
  obtain ⟨-, htakes⟩ := ((write_settles m address bytes).ok_iff m').mp hwrite
  obtain ⟨hfits, hold⟩ := ((read_settles m address' len').ok_iff old).mp hread
  have hnew := m'.shows_slice hfits
  have hread' := ((read_settles m' address' len').ok_iff _).mpr ⟨hfits, hnew⟩
  exact ⟨_, hread', hnew.length.trans hold.length.symm, fun j hj => htakes.shows hold hnew j hj⟩

/-- Two bytes are written at the end of memory, and the last three are read back. -/
theorem spans_exact_end :
    ∃ m' new, Processor.powerOn.memory.write 4094 [7, 9] = .ok m' ∧ m'.read 4093 3 = .ok new ∧
      new[0]? = some 0 ∧ new[1]? = some 7 ∧ new[2]? = some 9 := by
  obtain ⟨-, hwrites⟩ := spans_exact Processor.powerOn.memory 4094
  obtain ⟨hsettles, hback⟩ := hwrites [7, 9]
  have hwrite := (hsettles.ok_iff _).mpr ⟨by decide, takes_put _ (by decide)⟩
  obtain ⟨new, hread, -, hbytes⟩ := hback _ hwrite 4093 3 [0, 0, 0] (by decide +kernel)
  exact ⟨_, new, hwrite, hread, hbytes 0 (by decide), hbytes 1 (by decide), hbytes 2 (by decide)⟩

/-- Of the two bytes that are asked for here, the last has an address that 64 bits cannot name: there is no fault, the
sum overflows. -/
theorem overflowing_span :
    last (0xFFFFFFFFFFFFFFFF : UInt64).toNat (2 : UInt64).toNat = UInt64.size ∧
      Processor.powerOn.memory.read 0xFFFFFFFFFFFFFFFF 2 = .error .overflow ∧
      Processor.powerOn.memory.write 0xFFFFFFFFFFFFFFFF [7, 9] = .error .overflow := by
  decide +kernel

end Memory

end ChipEight
