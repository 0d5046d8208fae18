import ChipEight.Core
import ChipEight.Proofs.Drawing
import ChipEight.Proofs.Spans

/-!
# Well-formed machines stay well-formed

Four instructions touch the stack pointer or the screen.  Call and return check the stack pointer first, so it stays
within the stack; the other two leave dark and lit cells.

* `Session.sp_le_exec`, `Session.plain_exec` : one instruction, with the stack pointer and the screen by themselves.
* `Session.wellFormed_step`, `Core.wellFormed_perform` : one operation.
* `Core.wellFormed_watch` : operations one after the other.
* `Session.exec_ne_breakdown`, `Session.step_ne_breakdown` : a stack pointer within the stack always finds its return
  address.
-/

namespace ChipEight

/-- Well-formedness is about the stack pointer and the screen only. -/
theorem Machine.WellFormed.of_eq {m m' : Machine} (h : m.WellFormed) (hsp : m'.sp = m.sp)
    (hscreen : m'.screen = m.screen) : m'.WellFormed := by
  refine ⟨?_, ?_⟩
  · rw [hsp]
    exact h.sp_le
  · rw [hscreen]
    exact h.cell_le

theorem Board.wellFormed_reset {b : Board} {p : Processor} (h : p.sp ≤ 16) : (b.reset.machine p).WellFormed :=
  ⟨h, Screen.get_blank_le⟩

theorem Processor.sp_of_withProgram? {program : List UInt8} {p : Processor} (h : withProgram? program = some p) :
    p.sp = 0 := by
  unfold withProgram? at h
  split at h
  · cases h
    rfl
  · cases h

namespace Session

variable {s : Session} (o : Surroundings)

theorem step_keeps {P : Session → Prop} (hpast : ∀ s : Session, P s → P { s with pc := s.pc + 2 })
    (hexec : ∀ (s : Session) (i : Instr), P s → P (s.exec o i).2) (h : P s) : P (s.step o).2 := by
  unfold step
  cases s.memory.word s.pc with
  | error f => exact h
  | ok w =>
    have hfetched : P { s with pc := s.pc + 2 } := hpast s h
    simp only [execWord]
    cases Instr.ofWord? w with
    | none => exact hfetched
    | some i => exact hexec _ i hfetched

/-- Call and return keep the stack pointer within the stack. -/
theorem sp_le_exec (h : s.sp ≤ 16) (i : Instr) : (s.exec o i).2.sp ≤ 16 := by
  cases i with
  | ret =>
    simp only [exec]
    split
    · exact h
    · next hsp =>
      split
      · simp only [← UInt8.toNat_inj, UInt8.le_iff_toNat_le, UInt8.toNat_sub, UInt8.reduceToNat] at *
        omega
      · exact h
  | call a =>
    simp only [exec]
    split
    · next hsp =>
      simp only [UInt8.le_iff_toNat_le, UInt8.toNat_add, UInt8.reduceToNat] at *
      omega
    · exact h
  | skipEqByte x kk | skipNeByte x kk | skipEq x y | skipNe x y | skipHeld x | skipNotHeld x =>
    simp only [exec, passIf_eq]
    exact h
  | draw x y n | digits x | dump x | fill x | awaitKey x =>
    simp only [exec]
    split <;> exact h
  | _ => exact h

/-- Clearing and drawing leave dark and lit cells. -/
theorem plain_exec (h : s.screen.Plain) (i : Instr) : (s.exec o i).2.screen.Plain := by
  cases i with
  | clear => exact Screen.get_blank_le
  | draw x y n =>
    simp only [exec]
    split
    · exact h
    · exact Screen.get_flipAll_le h _
  | ret =>
    simp only [exec]
    split
    · exact h
    · split <;> exact h
  | skipEqByte x kk | skipNeByte x kk | skipEq x y | skipNe x y | skipHeld x | skipNotHeld x =>
    simp only [exec, passIf_eq]
    exact h
  | call a | digits x | dump x | fill x | awaitKey x =>
    simp only [exec]
    split <;> exact h
  | _ => exact h

theorem wellFormed_exec (h : s.toMachine.WellFormed) (i : Instr) : (s.exec o i).2.toMachine.WellFormed :=
  ⟨sp_le_exec o h.sp_le i, plain_exec o h.cell_le i⟩

theorem wellFormed_execWord (h : s.toMachine.WellFormed) (w : Word) : (s.execWord o w).2.toMachine.WellFormed := by
  unfold execWord
  cases Instr.ofWord? w with
  | none => exact h
  | some i => exact wellFormed_exec o h i

theorem sp_le_step (h : s.sp ≤ 16) : (s.step o).2.sp ≤ 16 :=
  step_keeps o (P := fun s => s.sp ≤ 16) (fun _ h => h) (fun _ i h => sp_le_exec o h i) h

theorem plain_step (h : s.screen.Plain) : (s.step o).2.screen.Plain :=
  step_keeps o (P := fun s => s.screen.Plain) (fun _ h => h) (fun _ i h => plain_exec o h i) h

theorem wellFormed_step (h : s.toMachine.WellFormed) : (s.step o).2.toMachine.WellFormed :=
  ⟨sp_le_step o h.sp_le, plain_step o h.cell_le⟩

/-! ### Return addresses -/

theorem top_lt (h : s.sp ≤ 16) (hzero : s.sp ≠ 0) : (s.sp - 1).toNat < 16 := by
  simp only [ne_eq, ← UInt8.toNat_inj, UInt8.le_iff_toNat_le, UInt8.toNat_sub, UInt8.reduceToNat] at *
  omega

theorem exec_ne_breakdown (h : s.sp ≤ 16) (i : Instr) : (s.exec o i).1 ≠ .breakdown := by
  cases i with
  | ret =>
    simp only [exec]
    split
    · rintro ⟨⟩
    · next hzero =>
      rw [Vector.getElem?_eq_getElem (top_lt h hzero)]
      rintro ⟨⟩
  | call a | awaitKey x =>
    simp only [exec]
    split <;> rintro ⟨⟩
  | draw x y n =>
    simp only [exec, s.read_eq_overrun n.val (by omega)]
    cases s.overrun? n.val <;> rintro ⟨⟩
  | digits x =>
    simp only [exec, s.write_eq_overrun _ (length_decimals (s.reg x)) (by decide)]
    cases s.overrun? 3 <;> rintro ⟨⟩
  | dump x =>
    simp only [exec, s.write_eq_overrun _ (s.length_take_registers x) (by omega)]
    cases s.overrun? (x.val + 1) <;> rintro ⟨⟩
  | fill x =>
    simp only [exec, s.read_eq_overrun (x.val + 1) (by omega)]
    cases s.overrun? (x.val + 1) <;> rintro ⟨⟩
  | _ => rintro ⟨⟩

theorem execWord_ne_breakdown (h : s.sp ≤ 16) (w : Word) : (s.execWord o w).1 ≠ .breakdown := by
  unfold execWord
  cases Instr.ofWord? w with
  | none => rintro ⟨⟩
  | some i => exact exec_ne_breakdown o h i

theorem step_ne_breakdown (h : s.sp ≤ 16) : (s.step o).1 ≠ .breakdown := by
  unfold step
  cases s.memory.word s.pc with
  | error f => rintro ⟨⟩
  | ok w => exact execWord_ne_breakdown o (s := { s with pc := s.pc + 2 }) h w

end Session

/-! ### Operations -/

namespace Core

variable {c : Core} (o : Surroundings)

theorem wellFormed_perform (h : c.machine.WellFormed) {op : Op} (hop : ∀ m, op = .restore m → m.WellFormed) :
    (c.perform o op).2.machine.WellFormed := by
  cases op with
  | step => exact Session.wellFormed_step o (s := c.session) h
  | exec w => exact Session.wellFormed_execWord o (s := c.session) h w
  | tick => exact h.of_eq rfl rfl
  | reset => exact Board.wellFormed_reset h.sp_le
  | restore m => exact hop m rfl

theorem perform_ne_breakdown (h : c.machine.sp ≤ 16) (op : Op) : (c.perform o op).1 ≠ .ended .breakdown := by
  cases op with
  | step =>
    intro hc
    exact Session.step_ne_breakdown o (s := c.session) h (Answer.ended.inj hc)
  | exec w =>
    intro hc
    exact Session.execWord_ne_breakdown o (s := c.session) h w (Answer.ended.inj hc)
  | tick | reset | restore m => rintro ⟨⟩

theorem wellFormed_watch (h : c.machine.WellFormed) {ops : List Op} (hops : ∀ m, .restore m ∈ ops → m.WellFormed) :
    ∀ s ∈ c.watch o ops, s.machine.WellFormed ∧ s.answer ≠ .ended .breakdown := by
  induction ops generalizing c with
  | nil =>
    intro s hs
    cases hs
  | cons op ops ih =>
    have hnext : (c.perform o op).2.machine.WellFormed := by
      refine wellFormed_perform o h fun m hm => ?_
      exact hops m (hm ▸ List.mem_cons_self)
    intro s hs
    rcases List.mem_cons.mp hs with rfl | hs
    · exact ⟨hnext, perform_ne_breakdown o h.sp_le op⟩
    · exact ih hnext (fun m hm => hops m (List.mem_cons_of_mem op hm)) s hs

end Core

end ChipEight
