import ChipEight.Core

/-!
# The calls of an instruction

An instruction makes at most one call to its surroundings, and the machine alone decides which (`Instr.call?`).

* `tally_exec`, `tally_step`, `tally_perform` : the tally counts that call and no other.
-/

namespace ChipEight

/-- A call to the surroundings that an instruction can make. -/
inductive Call where
  | ask
  | startTone
  | draw
  deriving DecidableEq, Repr

def Tally.after (t : Tally) : Option Call → Tally
  | none => t
  | some .ask => t.ask
  | some .startTone => t.startTone
  | some .draw => t.draw

def Instr.call? (m : Machine) : Instr → Option Call
  | .skipHeld _ | .skipNotHeld _ | .awaitKey _ => some .ask
  | .random _ _ => some .draw
  | .setSound x => if m.reg x = 0 then none else some .startTone
  | _ => none

def Word.call? (m : Machine) (w : Word) : Option Call := (Instr.ofWord? w).bind (Instr.call? m)

def Machine.call? (m : Machine) : Option Call :=
  match m.memory.word m.pc with
  | .error _ => none
  | .ok w => w.call? m

namespace Session

variable (o : Surroundings) (s : Session)

theorem tally_exec (i : Instr) : (s.exec o i).2.tally = s.tally.after (i.call? s.toMachine) := by
  cases i with
  | ret =>
    simp only [exec]
    split
    · rfl
    · split <;> rfl
  | call a =>
    simp only [exec]
    split <;> rfl
  | skipEqByte x kk | skipNeByte x kk | skipEq x y | skipNe x y =>
    simp only [exec, passIf_eq]
    rfl
  | draw x y n | digits x | dump x | fill x =>
    simp only [exec]
    split <;> rfl
  | awaitKey x =>
    simp only [exec]
    split <;> rfl
  | setSound x =>
    by_cases h : s.reg x = 0
    · simp only [exec, Instr.call?, if_pos h]
      rfl
    · simp only [exec, Instr.call?, if_neg h]
      rfl
  | _ => rfl

theorem tally_execWord (w : Word) : (s.execWord o w).2.tally = s.tally.after (w.call? s.toMachine) := by
  unfold execWord Word.call?
  cases Instr.ofWord? w with
  | none => rfl
  | some i => exact tally_exec o s i

theorem tally_step : (s.step o).2.tally = s.tally.after s.toMachine.call? := by
  unfold step Machine.call?
  cases s.memory.word s.pc with
  | error f => rfl
  | ok w => exact tally_execWord o _ w

end Session

namespace Core

def Op.call? (m : Machine) : Op → Option Call
  | .step => m.call?
  | .exec w => w.call? m
  | .tick | .reset | .restore _ => none

theorem tally_perform (o : Surroundings) (c : Core) (op : Op) :
    (c.perform o op).2.tally = c.tally.after (op.call? c.machine) := by
  cases op with
  | step => exact Session.tally_step o c.session
  | exec w => exact Session.tally_execWord o c.session w
  | tick | reset | restore m => rfl

end Core

end ChipEight
