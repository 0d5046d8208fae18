import ChipEight.Instr
import Mathlib.Data.Fin.Basic

/-!
# Reading instructions off words

`Instr.ofWord?_eq_some_iff` : an instruction is read off exactly those words that the table of the instruction set gives
it (`Instr.Reads`).
-/

namespace ChipEight

namespace Instr

/-- **The table of the instruction set**: the instruction is what the word stands for. -/
def Reads (w : Word) : Instr → Prop
  | .clear => w.family = 0x0 ∧ w.kk = 0xE0
  | .ret => w.family = 0x0 ∧ w.kk = 0xEE
  | .jump a => w.family = 0x1 ∧ a = w.addr
  | .call a => w.family = 0x2 ∧ a = w.addr
  | .skipEqByte x kk => w.family = 0x3 ∧ x = w.x ∧ kk = w.kk
  | .skipNeByte x kk => w.family = 0x4 ∧ x = w.x ∧ kk = w.kk
  | .skipEq x y => w.family = 0x5 ∧ x = w.x ∧ y = w.y
  | .setByte x kk => w.family = 0x6 ∧ x = w.x ∧ kk = w.kk
  | .addByte x kk => w.family = 0x7 ∧ x = w.x ∧ kk = w.kk
  | .copy x y => w.family = 0x8 ∧ w.n = 0x0 ∧ x = w.x ∧ y = w.y
  | .or x y => w.family = 0x8 ∧ w.n = 0x1 ∧ x = w.x ∧ y = w.y
  | .and x y => w.family = 0x8 ∧ w.n = 0x2 ∧ x = w.x ∧ y = w.y
  | .xor x y => w.family = 0x8 ∧ w.n = 0x3 ∧ x = w.x ∧ y = w.y
  | .add x y => w.family = 0x8 ∧ w.n = 0x4 ∧ x = w.x ∧ y = w.y
  | .sub x y => w.family = 0x8 ∧ w.n = 0x5 ∧ x = w.x ∧ y = w.y
  | .shiftRight x => w.family = 0x8 ∧ w.n = 0x6 ∧ x = w.x
  | .subFrom x y => w.family = 0x8 ∧ w.n = 0x7 ∧ x = w.x ∧ y = w.y
  | .shiftLeft x => w.family = 0x8 ∧ w.n = 0xE ∧ x = w.x
  | .skipNe x y => w.family = 0x9 ∧ x = w.x ∧ y = w.y
  | .setIndex a => w.family = 0xA ∧ a = w.addr
  | .jumpPlus a => w.family = 0xB ∧ a = w.addr
  | .random x kk => w.family = 0xC ∧ x = w.x ∧ kk = w.kk
  | .draw x y n => w.family = 0xD ∧ x = w.x ∧ y = w.y ∧ n = w.n
  | .skipHeld x => w.family = 0xE ∧ w.kk = 0x9E ∧ x = w.x
  | .skipNotHeld x => w.family = 0xE ∧ w.kk = 0xA1 ∧ x = w.x
  | .readDelay x => w.family = 0xF ∧ w.kk = 0x07 ∧ x = w.x
  | .awaitKey x => w.family = 0xF ∧ w.kk = 0x0A ∧ x = w.x
  | .setDelay x => w.family = 0xF ∧ w.kk = 0x15 ∧ x = w.x
  | .setSound x => w.family = 0xF ∧ w.kk = 0x18 ∧ x = w.x
  | .addIndex x => w.family = 0xF ∧ w.kk = 0x1E ∧ x = w.x
  | .glyph x => w.family = 0xF ∧ w.kk = 0x29 ∧ x = w.x
  | .digits x => w.family = 0xF ∧ w.kk = 0x33 ∧ x = w.x
  | .dump x => w.family = 0xF ∧ w.kk = 0x55 ∧ x = w.x
  | .fill x => w.family = 0xF ∧ w.kk = 0x65 ∧ x = w.x

variable {w : Word} {i : Instr}

theorem reads_of_ofFamily0? (hf : w.family = 0x0) (h : ofFamily0? w = some i) : i.Reads w := by
  unfold ofFamily0? at h
  split at h <;> cases h
  all_goals exact ⟨hf, UInt8.toNat_inj.mp ‹_›⟩

theorem reads_of_ofFamily8? (hf : w.family = 0x8) (h : ofFamily8? w = some i) : i.Reads w := by
  unfold ofFamily8? at h
  split at h <;> cases h
  case h_7 hn => exact ⟨hf, Fin.ext hn, rfl⟩
  case h_9 hn => exact ⟨hf, Fin.ext hn, rfl⟩
  all_goals exact ⟨hf, Fin.ext ‹_›, rfl, rfl⟩

theorem reads_of_ofFamilyE? (hf : w.family = 0xE) (h : ofFamilyE? w = some i) : i.Reads w := by
  unfold ofFamilyE? at h
  split at h <;> cases h
  all_goals exact ⟨hf, UInt8.toNat_inj.mp ‹_›, rfl⟩

theorem reads_of_ofFamilyF? (hf : w.family = 0xF) (h : ofFamilyF? w = some i) : i.Reads w := by
  unfold ofFamilyF? at h
  split at h <;> cases h
  all_goals exact ⟨hf, UInt8.toNat_inj.mp ‹_›, rfl⟩

theorem reads_of_ofWord? (h : ofWord? w = some i) : i.Reads w := by
  unfold ofWord? at h
  split at h
  case h_1 hf => exact reads_of_ofFamily0? (Fin.ext hf) h
  case h_9 hf => exact reads_of_ofFamily8? (Fin.ext hf) h
  case h_15 hf => exact reads_of_ofFamilyE? (Fin.ext hf) h
  case h_16 =>
    -- the last row of the match holds whatever the others leave, which is `F` alone
    refine reads_of_ofFamilyF? (Fin.ext ?_) h
    have hlt := w.family.isLt
    simp only [imp_false] at *
    show w.family.val = 15
    omega
  all_goals
    cases h
    first
      | exact ⟨Fin.ext ‹_›, rfl⟩
      | exact ⟨Fin.ext ‹_›, rfl, rfl⟩
      | exact ⟨Fin.ext ‹_›, rfl, rfl, rfl⟩

theorem ofWord?_of_reads (h : i.Reads w) : ofWord? w = some i := by
  cases i <;> simp only [Reads] at h <;>
    simp [ofWord?, ofFamily0?, ofFamily8?, ofFamilyE?, ofFamilyF?, h]

/-- **An instruction is read off the words of its row of the table** and no others. -/
theorem ofWord?_eq_some_iff : ofWord? w = some i ↔ i.Reads w := ⟨reads_of_ofWord?, ofWord?_of_reads⟩

-- the last digit of this row is no operand, so it may be anything
example : ofWord? 0x5AB1 = some (.skipEq 0xA 0xB) := by decide

end Instr

end ChipEight
