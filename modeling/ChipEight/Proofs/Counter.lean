import ChipEight.Checked.Counter
import ChipEight.Proofs.NoHazard
import ChipEight.Proofs.Successor
import ChipEight.Proofs.Tone

/-!
# The program counter never wraps

Memory ends at `0x1000` and a register adds at most `0xFF` to an address in it, so the program counter stays far below
the end of its word.

* `Checked.Counter.step_eq` : with each sum and difference checked, every step is what it is without.
* `Processor.InReach` : how far the program counter and the stack slots can get; kept by every step.
* `Core.counter_in_reach` : so it is after every program, for ever after.
-/

namespace ChipEight

/-! ### Checked sums and differences -/

namespace Checked.Counter

variable {o : Surroundings} {s : Session} {w : Word} {i : Instr}

theorem advance_eq (h : s.pc.toNat + 2 < UInt16.size) : advance s = .ok s.past := by
  have hsum : plusWord s.pc 2 = .ok (s.pc + 2) := if_pos h
  rw [advance, hsum]
  rfl

theorem here_eq (h : 2 ≤ s.pc.toNat) : here s = .ok s.here := if_pos h

theorem passIf_eq (h : s.pc.toNat + 2 < UInt16.size) (c : Bool) : passIf s c = .ok (s.passIf c) := by
  cases c with
  | false => rfl
  | true => exact advance_eq h

theorem exec_eq (hback : 2 ≤ s.pc.toNat) (hroom : s.pc.toNat + 2 < UInt16.size) (i : Instr) :
    exec o s i = .ok (s.exec o i) := by
  cases i with
  | ret =>
    simp only [exec, here_eq hback, ok_bind]
    split
    · next hzero =>
      simp only [Session.exec, if_pos hzero]
      rfl
    · rfl
  | call a =>
    simp only [exec, here_eq hback, ok_bind]
    split
    · next hfull =>
      simp only [Session.exec, dif_neg (Nat.not_lt.mpr hfull)]
      rfl
    · rfl
  | skipEqByte | skipNeByte | skipEq | skipNe | skipHeld | skipNotHeld =>
    simp only [exec, passIf_eq hroom, ok_bind]
    rfl
  | awaitKey x =>
    simp only [exec, Session.exec, here_eq hback, ok_bind]
    cases o.heldKey s.tally <;> rfl
  | _ => rfl

theorem execWord_eq (hback : 2 ≤ s.pc.toNat) (hroom : s.pc.toNat + 2 < UInt16.size) (w : Word) :
    execWord o s w = .ok (s.narrateWord w, s.execWord o w) := by
  unfold execWord Session.narrateWord Session.execWord
  cases Instr.ofWord? w with
  | some i =>
    simp only [exec_eq hback hroom, ok_bind]
    rfl
  | none =>
    simp only [here_eq hback, ok_bind]
    rfl

theorem step_eq (o : Surroundings) (s : Session) : step o s = .ok (s.narrate, s.step o) := by
  unfold step Session.narrate Session.step
  cases hword : s.memory.word s.pc with
  | error f => rfl
  | ok w =>
    -- only a word inside memory is ever fetched
    have hfetches : s.Fetches w := Machine.fetches_iff.mpr hword
    have hle := hfetches.le
    obtain ⟨hpast, -⟩ := Session.toNat_pc_past hfetches
    have hsize : UInt16.size = 65536 := rfl
    simp only [advance_eq (s := s) (by omega), ok_bind, execWord_eq (s := s.past) (by omega) (by omega)]
    rfl

end Checked.Counter

/-! ### One step -/

/-- How far a processor can get: the stack pointer is within the stack, the program counter at most where a jump from
the last address with the largest byte leads, and each stack slot at most where memory ends. -/
structure Processor.InReach (p : Processor) : Prop where
  sp_le : p.sp ≤ 16
  pc_le : p.pc.toNat ≤ 0x10FE
  slot_le : ∀ k : Fin 16, (p.stack.get k).toNat ≤ 0x1000

theorem Processor.inReach_withProgram? {program : List UInt8} {p : Processor} (h : withProgram? program = some p) :
    p.InReach := by
  unfold withProgram? at h
  split at h
  · cases h
    have hsp : powerOn.sp ≤ 16 := by decide
    have hpc : powerOn.pc.toNat ≤ 0x10FE := by decide
    have hslot : ∀ k : Fin 16, (powerOn.stack.get k).toNat ≤ 0x1000 := by decide
    exact ⟨hsp, hpc, hslot⟩
  · cases h

/-- Each row of the table of successors leads at most that far. -/
theorem Word.successor?_le {m : Machine} {key : Option UInt8} {w : Word} {a : Nat} (hw : m.Fetches w)
    (hslot : ∀ k : Fin 16, (m.stack.get k).toNat ≤ 0x1000) (h : w.successor? m key = some a) : a ≤ 0x10FE := by
  have hpc := hw.le
  have haddr := w.addr_lt
  have hreg := (m.reg 0x0).toNat_lt
  unfold successor? at h
  split at h
  · injection h with h
    omega
  split at h
  · injection h with h
    omega
  split at h
  · split at h
    · cases h
    · obtain ⟨top, htop, rfl⟩ := Option.map_eq_some_iff.mp h
      obtain ⟨hlt, rfl⟩ := Vector.getElem?_eq_some_iff.mp htop
      exact (hslot ⟨_, hlt⟩).trans (by decide)
  split at h
  · injection h with h
    omega
  split at h
  · injection h with h
    omega
  · injection h with h
    omega

namespace Session

variable {o : Surroundings} {s : Session} {w : Word}

/-- An instruction leaves a stack slot, or puts the program counter there. -/
theorem slot_exec (o : Surroundings) (s : Session) (i : Instr) (k : Fin 16) :
    (s.exec o i).2.stack.get k = s.stack.get k ∨ (s.exec o i).2.stack.get k = s.pc := by
  cases i with
  | ret =>
    simp only [exec]
    split
    · exact .inl rfl
    · split <;> exact .inl rfl
  | call a =>
    simp only [exec]
    split
    · next hlt =>
      show (s.stack.set s.sp.toNat s.pc hlt)[k.val] = s.stack[k.val] ∨ (s.stack.set s.sp.toNat s.pc hlt)[k.val] = s.pc
      rw [Vector.getElem_set]
      split
      · exact .inr rfl
      · exact .inl rfl
    · exact .inl rfl
  | skipEqByte | skipNeByte | skipEq | skipNe | skipHeld | skipNotHeld =>
    left
    simp only [exec, passIf_eq]
  | awaitKey | draw | digits | dump | fill =>
    simp only [exec]
    split <;> exact .inl rfl
  | _ => exact .inl rfl

/-- What a word that was fetched puts in a stack slot is where memory ends, or before that. -/
theorem slot_execWord (hw : s.Fetches w) (hslot : ∀ k : Fin 16, (s.stack.get k).toNat ≤ 0x1000) (k : Fin 16) :
    ((s.past.execWord o w).2.stack.get k).toNat ≤ 0x1000 := by
  by_cases hreads : ∃ i : Instr, i.Reads w
  · obtain ⟨i, hi⟩ := hreads
    rw [execWord_of_reads o _ hi]
    rcases slot_exec o s.past i k with hsame | hpc
    · rw [hsame]
      exact hslot k
    · rw [hpc, (toNat_pc_past hw).1]
      exact hw.le
  · rw [execWord_of_not_reads o _ (not_exists.mp hreads)]
    exact hslot k

/-- A word that was fetched leads to where a fault leaves it, or where the table of successors says. -/
theorem pc_step_le (hw : s.Fetches w) (hsp : s.sp ≤ 16) (hslot : ∀ k : Fin 16, (s.stack.get k).toNat ≤ 0x1000) :
    (s.step o).2.pc.toNat ≤ 0x10FE := by
  by_cases hfault : ∃ f, (s.step o).1 = .fault f
  · obtain ⟨f, hf⟩ := hfault
    have hle := hw.le
    have hfetched : s.fetched = s.toProcessor.past := if_neg (by omega)
    have hpc : s.toProcessor.past.pc.toNat = s.pc.toNat + 2 := (toNat_pc_past hw).1
    rw [(step_endsBy o s).eq_of_fault hf]
    show s.fetched.pc.toNat ≤ 0x10FE
    rw [hfetched]
    omega
  · exact Word.successor?_le hw hslot (successor?_of_fetches hsp hw (not_exists.mp hfault))

/-- Every step keeps within reach, also one that ends with a fault. -/
theorem inReach_step (o : Surroundings) (h : s.InReach) : (s.step o).2.InReach := by
  cases hword : s.memory.word s.pc with
  | error f =>
    have hstep : (s.step o).2 = s := by
      unfold step
      rw [hword]
    rwa [hstep]
  | ok w =>
    have hw : s.Fetches w := Machine.fetches_iff.mpr hword
    refine ⟨sp_le_step o h.sp_le, pc_step_le hw h.sp_le h.slot_le, ?_⟩
    rw [step_of_fetches o hw]
    exact slot_execWord hw h.slot_le

end Session

/-! ### Whole runs -/

namespace Core

theorem inReach_move {c : Core} (o : Surroundings) (h : c.processor.InReach) (b : Beat) :
    (c.move o b).processor.InReach := by
  cases b with
  | step => exact Session.inReach_step (s := c.session) o h
  | tick => exact h

theorem inReach_play {c : Core} (o : Surroundings) (h : c.processor.InReach) (beats : List Beat) :
    (c.play o beats).processor.InReach := by
  induction beats generalizing c with
  | nil => exact h
  | cons b beats ih => exact ih (inReach_move o h b)

/-- **The program counter never wraps.**  From the start of any program, on any board, steps and ticks in any order, one
step after the other whether or not it ends with a fault, leave the program counter at `0x10FE` at most and each stack
slot at `0x1000` at most.  In no session at all does a step reckon with the program counter and wrap: with each sum and
difference checked, it makes the same notes and ends the same. -/
theorem counter_in_reach (o : Surroundings) :
    (∀ (program : List UInt8) (c : Core), Processor.withProgram? program = some c.processor → ∀ beats : List Beat,
      (c.play o beats).processor.pc.toNat ≤ 0x10FE ∧
        ∀ k : Fin 16, ((c.play o beats).processor.stack.get k).toNat ≤ 0x1000) ∧
    ∀ s : Session, Checked.Counter.step o s = .ok (s.narrate, s.step o) := by
  refine ⟨fun program c h beats => ?_, fun s => Checked.Counter.step_eq o s⟩
  have hreach := inReach_play o (Processor.inReach_withProgram? h) beats
  exact ⟨hreach.pc_le, hreach.slot_le⟩

/-- The largest byte in the first register, and then as far as a jump can lead; from there on every step ends with a
fault. -/
def farthest : Core where
  processor := { Processor.powerOn with
    memory := Bytes.put Processor.powerOn.memory Memory.programStart [0x60, 0xFF, 0xBF, 0xFF] }

theorem counter_in_reach_farthest :
    Processor.withProgram? [0x60, 0xFF, 0xBF, 0xFF] = some farthest.processor ∧
      (farthest.play .quiet (List.replicate 4 .step)).processor.pc = 0x10FE ∧
      (farthest.play .quiet (List.replicate 4 .step)).processor.pc.toNat ≤ 0x10FE := by
  have hload : Processor.withProgram? [0x60, 0xFF, 0xBF, 0xFF] = some farthest.processor := rfl
  exact ⟨hload, by decide +kernel, ((counter_in_reach .quiet).1 _ farthest hload (List.replicate 4 .step)).1⟩

end Core

end ChipEight
