import ChipEight.Proofs.Footprint
import ChipEight.Proofs.Runs
import Mathlib.Data.Nat.Bitwise

/-!
# Arithmetic on two registers

What the words of the family `8` compute, told in natural numbers.

* `Reckoning` : the table of the family: what a low digit makes of the values of two registers.
* `Reckoning.ofSum`, `ofDifference`, `ofHalf`, `ofDouble` : byte arithmetic keeps to it.
* `Word.Enters` : where result and flag go.
* `Core.reckons` : a word of the family computes what the table says, whichever registers it names, and changes nothing
  else.
-/

namespace ChipEight

/-- **The table of family `8`**: from `a` and `b` the word with this low digit computes a result and, in the rows of the
second half, a flag. -/
inductive Reckoning (a b : Nat) : Digit → Nat → Option Nat → Prop
  | copy : Reckoning a b 0x0 b none
  | or : Reckoning a b 0x1 (a ||| b) none
  | and : Reckoning a b 0x2 (a &&& b) none
  | xor : Reckoning a b 0x3 (a ^^^ b) none
  | add {r f : Nat} (hle : f ≤ 1) (hcarry : f = 1 ↔ 255 < a + b) (h : a + b = r + 256 * f) :
      Reckoning a b 0x4 r (some f)
  | sub {r f : Nat} (hle : f ≤ 1) (hborrow : f = 1 ↔ b ≤ a) (h : a + 256 * (1 - f) = b + r) :
      Reckoning a b 0x5 r (some f)
  | shiftRight {r f : Nat} (hle : f ≤ 1) (h : a = 2 * r + f) : Reckoning a b 0x6 r (some f)
  | subFrom {r f : Nat} (hle : f ≤ 1) (hborrow : f = 1 ↔ a ≤ b) (h : b + 256 * (1 - f) = a + r) :
      Reckoning a b 0x7 r (some f)
  | shiftLeft {r f : Nat} (hle : f ≤ 1) (h : 2 * a = r + 256 * f) : Reckoning a b 0xE r (some f)

def Reckoning.digits : List Digit := [0x0, 0x1, 0x2, 0x3, 0x4, 0x5, 0x6, 0x7, 0xE]

/-- Between two processors the word has entered this result and this flag, if there is one.  The flag goes to the last
register, also where that is the one of the result; the other registers stay. -/
structure Word.Enters (w : Word) (p p' : Processor) (r : Nat) (f : Option Nat) : Prop where
  flag : ∀ k, f = some k → (p'.reg 0xF).toNat = k
  result : w.x ≠ 0xF ∨ f = none → (p'.reg w.x).toNat = r
  other : ∀ y, y ≠ w.x → y ≠ 0xF ∨ f = none → p'.reg y = p.reg y

/-! ### Bytes -/

namespace Reckoning

variable (a b : UInt8)

theorem ofSum : Reckoning a.toNat b.toNat 0x4 (a + b).toNat (some (decide (255 < a.toNat + b.toNat)).toNat) := by
  have ha := a.toNat_lt
  have hb := b.toNat_lt
  have hsum : (a + b).toNat = (a.toNat + b.toNat) % 256 := UInt8.toNat_add a b
  by_cases hcarry : 255 < a.toNat + b.toNat
  · simp only [hcarry, decide_true, Bool.toNat_true]
    exact .add (by omega) (by omega) (by omega)
  · simp only [hcarry, decide_false, Bool.toNat_false]
    exact .add (by omega) (by omega) (by omega)

theorem toNat_sub_eq : ∃ f ≤ 1, (decide (b ≤ a)).toNat = f ∧ (f = 1 ↔ b.toNat ≤ a.toNat) ∧
    a.toNat + 256 * (1 - f) = b.toNat + (a - b).toNat := by
  have ha := a.toNat_lt
  have hb := b.toNat_lt
  have hsub : (a - b).toNat = (256 - b.toNat + a.toNat) % 256 := UInt8.toNat_sub a b
  by_cases hle : b ≤ a
  · have hle' : b.toNat ≤ a.toNat := hle
    refine ⟨1, Nat.le_refl 1, ?_, by omega, by omega⟩
    rw [decide_eq_true hle, Bool.toNat_true]
  · have hle' : ¬ b.toNat ≤ a.toNat := hle
    refine ⟨0, Nat.zero_le 1, ?_, by omega, by omega⟩
    rw [decide_eq_false hle, Bool.toNat_false]

theorem ofDifference : Reckoning a.toNat b.toNat 0x5 (a - b).toNat (some (decide (b ≤ a)).toNat) := by
  obtain ⟨f, hle, hflag, hborrow, h⟩ := toNat_sub_eq a b
  rw [hflag]
  exact .sub hle hborrow h

theorem ofDifferenceFrom : Reckoning a.toNat b.toNat 0x7 (b - a).toNat (some (decide (a ≤ b)).toNat) := by
  obtain ⟨f, hle, hflag, hborrow, h⟩ := toNat_sub_eq b a
  rw [hflag]
  exact .subFrom hle hborrow h

theorem and_bit_beq (k : Nat) (hk : k < 8) : (a &&& .ofNat (2 ^ k) == .ofNat (2 ^ k)) = a.toNat.testBit k := by
  have hlt : 2 ^ k < 256 := Nat.pow_lt_pow_right (by decide) hk
  rw [Bool.eq_iff_iff, beq_iff_eq, ← UInt8.toNat_inj, UInt8.toNat_and, UInt8.toNat_ofNat_of_lt' hlt, Nat.and_two_pow]
  cases a.toNat.testBit k
  · simpa using (Nat.two_pow_pos k).ne
  · simp

theorem ofHalf : Reckoning a.toNat b.toNat 0x6 (a >>> 1).toNat (some (a &&& 0x01 == 0x01).toNat) := by
  have hhalf : (a >>> 1).toNat = a.toNat / 2 := by
    rw [UInt8.toNat_shiftRight]
    exact Nat.shiftRight_eq_div_pow _ 1
  have hbit : (a &&& 0x01 == 0x01) = a.toNat.testBit 0 := and_bit_beq a 0 (by decide)
  rw [hhalf, hbit, Nat.testBit_zero]
  by_cases hodd : a.toNat % 2 = 1
  · simp only [hodd, decide_true, Bool.toNat_true]
    exact .shiftRight (Nat.le_refl 1) (by omega)
  · simp only [hodd, decide_false, Bool.toNat_false]
    exact .shiftRight (Nat.zero_le 1) (by omega)

theorem ofDouble : Reckoning a.toNat b.toNat 0xE (a <<< 1).toNat (some (a &&& 0x80 == 0x80).toNat) := by
  have ha := a.toNat_lt
  have hdouble : (a <<< 1).toNat = 2 * a.toNat % 256 := by
    rw [UInt8.toNat_shiftLeft, Nat.mul_comm]
    exact congrArg (· % 256) (Nat.shiftLeft_eq _ 1)
  have hbit : (a &&& 0x80 == 0x80) = a.toNat.testBit 7 := and_bit_beq a 7 (by decide)
  rw [hdouble, hbit, Nat.testBit_eq_decide_div_mod_eq]
  by_cases hhigh : a.toNat / 2 ^ 7 % 2 = 1
  · simp only [hhigh, decide_true, Bool.toNat_true]
    exact .shiftLeft (Nat.le_refl 1) (by omega)
  · simp only [hhigh, decide_false, Bool.toNat_false]
    exact .shiftLeft (Nat.zero_le 1) (by omega)

end Reckoning

/-! ### Registers -/

namespace Session

def enter (s : Session) (x : Digit) (r : UInt8) : Option Bool → Session
  | none => s.setReg x r
  | some flag => s.setFlagged x r flag

/-- A word of the family enters what the table says of the registers, whatever else is in the session. -/
theorem execWord_reckoning (o : Surroundings) {w : Word} (hf : w.family = 0x8) (hn : w.n ∈ Reckoning.digits)
    (v : Vector UInt8 16) :
    ∃ (r : UInt8) (flag : Option Bool),
      Reckoning (v.get w.x).toNat (v.get w.y).toNat w.n r.toNat (flag.map Bool.toNat) ∧
        ∀ s : Session, s.v = v → s.execWord o w = (.next, s.enter w.x r flag) := by
  simp only [Reckoning.digits, List.mem_cons, List.not_mem_nil, or_false] at hn
  rcases hn with hn | hn | hn | hn | hn | hn | hn | hn | hn <;> rw [hn]
  · refine ⟨_, none, .copy, ?_⟩
    rintro s rfl
    exact s.execWord_of_reads o (i := .copy w.x w.y) ⟨hf, hn, rfl, rfl⟩
  · refine ⟨v.get w.x ||| v.get w.y, none, ?_, ?_⟩
    · rw [UInt8.toNat_or]
      exact .or
    · rintro s rfl
      exact s.execWord_of_reads o (i := .or w.x w.y) ⟨hf, hn, rfl, rfl⟩
  · refine ⟨v.get w.x &&& v.get w.y, none, ?_, ?_⟩
    · rw [UInt8.toNat_and]
      exact .and
    · rintro s rfl
      exact s.execWord_of_reads o (i := .and w.x w.y) ⟨hf, hn, rfl, rfl⟩
  · refine ⟨v.get w.x ^^^ v.get w.y, none, ?_, ?_⟩
    · rw [UInt8.toNat_xor]
      exact .xor
    · rintro s rfl
      exact s.execWord_of_reads o (i := .xor w.x w.y) ⟨hf, hn, rfl, rfl⟩
  · refine ⟨_, some _, .ofSum _ _, ?_⟩
    rintro s rfl
    exact s.execWord_of_reads o (i := .add w.x w.y) ⟨hf, hn, rfl, rfl⟩
  · refine ⟨_, some _, .ofDifference _ _, ?_⟩
    rintro s rfl
    exact s.execWord_of_reads o (i := .sub w.x w.y) ⟨hf, hn, rfl, rfl⟩
  · refine ⟨_, some _, .ofHalf _ _, ?_⟩
    rintro s rfl
    exact s.execWord_of_reads o (i := .shiftRight w.x) ⟨hf, hn, rfl⟩
  · refine ⟨_, some _, .ofDifferenceFrom _ _, ?_⟩
    rintro s rfl
    exact s.execWord_of_reads o (i := .subFrom w.x w.y) ⟨hf, hn, rfl, rfl⟩
  · refine ⟨_, some _, .ofDouble _ _, ?_⟩
    rintro s rfl
    exact s.execWord_of_reads o (i := .shiftLeft w.x) ⟨hf, hn, rfl⟩

variable {s : Session}

theorem enters_enter (w : Word) (r : UInt8) (flag : Option Bool) :
    w.Enters s.toProcessor (s.enter w.x r flag).toProcessor r.toNat (flag.map Bool.toNat) := by
  cases flag with
  | none =>
    refine ⟨nofun, fun _ => ?_, fun y hy _ => ?_⟩
    · exact congrArg UInt8.toNat ((s.reg_setReg w.x w.x r).trans (if_pos rfl))
    · exact (s.reg_setReg w.x y r).trans (if_neg (Ne.symm hy))
  | some flag =>
    refine ⟨fun f hf => ?_, fun hx => ?_, fun y hy hy15 => ?_⟩
    · cases hf
      refine (congrArg UInt8.toNat ((s.reg_setFlagged w.x 15 r flag).trans (if_pos rfl))).trans ?_
      cases flag <;> rfl
    · have hx : 15 ≠ w.x := Ne.symm (hx.resolve_right nofun)
      exact congrArg UInt8.toNat ((s.reg_setFlagged w.x w.x r flag).trans ((if_neg hx).trans (if_pos rfl)))
    · have hy15 : 15 ≠ y := Ne.symm (hy15.resolve_right nofun)
      exact (s.reg_setFlagged w.x y r flag).trans ((if_neg hy15).trans (if_neg (Ne.symm hy)))

end Session

/-! ### Cores -/

namespace Core

variable (o : Surroundings) (c : Core)

/-- **Arithmetic on two registers, in natural numbers.**  Whichever registers a word of the family names, be they the same
or the one of the flag, it reads both values first, computes what its row of the table says and enters result and flag.
Nothing else changes, but that a step passes over the word. -/
theorem reckons {w : Word} (hf : w.family = 0x8) (hn : w.n ∈ Reckoning.digits) :
    ∃ r flag c', c.perform o (.exec w) = (.ended .next, c') ∧ r < 256 ∧
      Reckoning (c.processor.reg w.x).toNat (c.processor.reg w.y).toNat w.n r flag ∧
      w.Enters c.processor c'.processor r flag ∧ c' = { c with processor.v := c'.processor.v } ∧
      (c.machine.Fetches w →
        c.perform o .step = (.ended .next, { c' with processor.pc := c.processor.pc + 2 })) := by
  obtain ⟨r, flag, hreckoning, hexec⟩ := Session.execWord_reckoning o hf hn c.processor.v
  have hperform (pc : UInt16) : { c with processor.pc := pc }.perform o (.exec w) =
      (.ended .next, { c with processor := { (c.session.enter w.x r flag).toProcessor with pc } }) := by
    have hword := hexec { c with processor.pc := pc }.session rfl
    unfold perform
    simp only [hword]
    cases flag <;> rfl
  refine ⟨r.toNat, flag.map Bool.toNat, { c with processor := (c.session.enter w.x r flag).toProcessor }, ?_, r.toNat_lt,
    hreckoning, c.session.enters_enter w r flag, ?_, fun hfetch => ?_⟩
  · rw [hperform c.processor.pc]
    cases flag <;> rfl
  · cases flag <;> rfl
  · rw [perform_step_of_fetches o c hfetch]
    exact hperform _

/-- A core with the same large number in every register. -/
def evenly : Core where
  processor := { Processor.powerOn with v := Vector.replicate 16 200 }

/-- The flag wins over the sum when all three are the last register. -/
theorem reckons_evenly :
    (0x8FF4 : Word).family = 0x8 ∧ (0x8FF4 : Word).n ∈ Reckoning.digits ∧
      ∃ c', evenly.perform .quiet (.exec 0x8FF4) = (.ended .next, c') ∧ c'.processor.reg 0xF = 1 := by
  have hf : (0x8FF4 : Word).family = 0x8 := by decide
  have hn : (0x8FF4 : Word).n = 0x4 := by decide
  have hmem : (0x8FF4 : Word).n ∈ Reckoning.digits := by decide
  obtain ⟨r, flag, c', hexec, -, hreckoning, henters, -⟩ := reckons .quiet evenly hf hmem
  rw [hn] at hreckoning
  cases hreckoning with
  | @add r f hle hcarry h =>
    have hone : f = 1 := hcarry.mpr (by decide +kernel)
    refine ⟨hf, hmem, c', hexec, UInt8.toNat_inj.mp ?_⟩
    rw [henters.flag f rfl, hone]
    rfl

end Core

end ChipEight
