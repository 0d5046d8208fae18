import ChipEight.Proofs.Calls
import ChipEight.Proofs.Image.RoundTrip

/-!
# Replaying a machine

An instruction reads the machine and the answers of the surroundings, and nothing else.  Two cores with the same
machine therefore stay alike for as long as they hear the same, whatever calls, run states, rates and faults lie behind
them; and an image keeps the whole machine.

* `Session.step_congr` : a step of two alike sessions.
* `Core.watch_congr` : the operations on two alike cores.
* `Core.watch_restored` : a core that takes over the machine of an image repeats what the other one does.
-/

namespace ChipEight

/-! ### Hearing the same -/

/-- After the calls of `t'`, `o'` answers what `o` answers after those of `t`. -/
structure Surroundings.Echoes (o : Surroundings) (t : Tally) (o' : Surroundings) (t' : Tally) : Prop where
  key_eq : ∀ n, o'.key (t'.asked + n) = o.key (t.asked + n)
  random_eq : ∀ n, o'.random (t'.drawn + n) = o.random (t.drawn + n)

namespace Surroundings.Echoes

variable {o o' : Surroundings} {t t' : Tally}

theorem heldKey_eq (h : Echoes o t o' t') : o'.heldKey t' = o.heldKey t := by
  unfold heldKey
  exact congrArg (Option.filter (· < 16)) (h.key_eq 0)

theorem random_drawn_eq (h : Echoes o t o' t') : o'.random t'.drawn = o.random t.drawn := h.random_eq 0

theorem after (h : Echoes o t o' t') (call : Option Call) : Echoes o (t.after call) o' (t'.after call) := by
  rcases call with _ | _ | _ | _
  · exact h
  · refine ⟨fun n => ?_, h.random_eq⟩
    have hn := h.key_eq (1 + n)
    rwa [← Nat.add_assoc, ← Nat.add_assoc] at hn
  · exact ⟨h.key_eq, h.random_eq⟩
  · refine ⟨h.key_eq, fun n => ?_⟩
    have hn := h.random_eq (1 + n)
    rwa [← Nat.add_assoc, ← Nat.add_assoc] at hn

end Surroundings.Echoes

/-- The calls that are counted do not depend on those before them. -/
theorem Tally.since_after (t t' : Tally) (call : Option Call) : (t'.after call).since t' = (t.after call).since t := by
  rcases call with _ | _ | _ | _ <;> simp [after, since, ask, startTone, draw]

/-! ### One instruction -/

namespace Session

variable {o o' : Surroundings} {m : Machine} {t t' : Tally}

theorem exec_congr (h : o.Echoes t o' t') (i : Instr) :
    (exec o' ⟨m, t'⟩ i).1 = (exec o ⟨m, t⟩ i).1 ∧ (exec o' ⟨m, t'⟩ i).2.toMachine = (exec o ⟨m, t⟩ i).2.toMachine := by
  have hkey := h.heldKey_eq
  have hrandom := h.random_drawn_eq
  cases i with
  | ret =>
    simp only [exec]
    split
    · exact ⟨rfl, rfl⟩
    · split <;> exact ⟨rfl, rfl⟩
  | call a =>
    simp only [exec]
    split <;> exact ⟨rfl, rfl⟩
  | skipEqByte x kk | skipNeByte x kk | skipEq x y | skipNe x y =>
    simp only [exec, passIf_eq, and_self]
  | random x kk =>
    simp only [exec, hrandom, true_and]
    rfl
  | draw x y n | digits x | dump x | fill x =>
    simp only [exec]
    split <;> exact ⟨rfl, rfl⟩
  | skipHeld x | skipNotHeld x =>
    simp only [exec, passIf_eq, hkey, and_self]
  | awaitKey x =>
    simp only [exec, hkey]
    split <;> exact ⟨rfl, rfl⟩
  | _ => exact ⟨rfl, rfl⟩

theorem execWord_congr (h : o.Echoes t o' t') (w : Word) :
    (execWord o' ⟨m, t'⟩ w).1 = (execWord o ⟨m, t⟩ w).1 ∧
      (execWord o' ⟨m, t'⟩ w).2.toMachine = (execWord o ⟨m, t⟩ w).2.toMachine := by
  unfold execWord
  cases Instr.ofWord? w with
  | none => exact ⟨rfl, rfl⟩
  | some i => exact exec_congr h i

theorem step_congr (h : o.Echoes t o' t') :
    (step o' ⟨m, t'⟩).1 = (step o ⟨m, t⟩).1 ∧ (step o' ⟨m, t'⟩).2.toMachine = (step o ⟨m, t⟩).2.toMachine := by
  unfold step
  cases m.memory.word m.pc with
  | error f => exact ⟨rfl, rfl⟩
  | ok w => exact execWord_congr h w

end Session

/-! ### Operations -/

namespace Core

variable {o o' : Surroundings} {c c' : Core}

/-- Cores with the same machine that will hear the same. -/
structure Alike (o : Surroundings) (c : Core) (o' : Surroundings) (c' : Core) : Prop where
  machine_eq : c'.machine = c.machine
  echoes : o.Echoes c.tally o' c'.tally

theorem perform_congr (h : Alike o c o' c') (op : Op) :
    (c'.perform o' op).1 = (c.perform o op).1 ∧ (c'.perform o' op).2.machine = (c.perform o op).2.machine := by
  have hm := h.machine_eq
  cases op with
  | step =>
    have hstep := Session.step_congr (m := c.machine) h.echoes
    simp only [perform, session, hm, machine_resume]
    exact ⟨congrArg Answer.ended hstep.1, hstep.2⟩
  | exec w =>
    have hexec := Session.execWord_congr (m := c.machine) h.echoes w
    simp only [perform, session, hm, machine_resume]
    exact ⟨congrArg Answer.ended hexec.1, hexec.2⟩
  | tick =>
    have htimers : c'.board.timers = c.board.timers := congrArg Machine.toTimers hm
    have hprocessor : c'.processor = c.processor := congrArg Machine.toProcessor hm
    have hscreen : c'.board.screen = c.board.screen := congrArg Machine.screen hm
    simp only [perform, machine, Board.tick, Board.machine, htimers, hprocessor, hscreen, and_self]
  | reset =>
    have hprocessor : c'.processor = c.processor := congrArg Machine.toProcessor hm
    simp only [perform, machine, Board.reset, Board.restore, Board.machine, hprocessor, and_self]
  | restore m => exact ⟨rfl, rfl⟩

/-- **One operation** on alike cores is seen as the same and leaves alike cores. -/
theorem alike_perform (h : Alike o c o' c') (op : Op) :
    c'.sight (c'.perform o' op).2 (c'.perform o' op).1 = c.sight (c.perform o op).2 (c.perform o op).1 ∧
      Alike o (c.perform o op).2 o' (c'.perform o' op).2 := by
  obtain ⟨hanswer, hmachine⟩ := perform_congr h op
  have htally := tally_perform o c op
  have htally' := tally_perform o' c' op
  rw [h.machine_eq] at htally'
  refine ⟨?_, hmachine, ?_⟩
  · unfold sight
    rw [hanswer, hmachine, htally, htally', Tally.since_after]
  · rw [htally, htally']
    exact h.echoes.after _

/-- **Operations** on alike cores are seen as the same. -/
theorem watch_congr (h : Alike o c o' c') (ops : List Op) : c'.watch o' ops = c.watch o ops := by
  induction ops generalizing c c' with
  | nil => rfl
  | cons op ops ih =>
    obtain ⟨hsight, halike⟩ := alike_perform h op
    unfold watch
    exact congrArg₂ List.cons hsight (ih halike)

/-- **An image holds all that decides the future.**  The image of a well-formed machine is accepted, and a core that
takes over the machine it holds, whatever its own processor, board and calls were, does what the first core does: every
operation has the same answer, makes the same calls and leaves the same machine, as long as both hear the same. -/
theorem watch_restored (o o' : Surroundings) (c d : Core) (hwf : c.machine.WellFormed)
    (hkey : ∀ n, o'.key (d.tally.asked + n) = o.key (c.tally.asked + n))
    (hrandom : ∀ n, o'.random (d.tally.drawn + n) = o.random (c.tally.drawn + n)) :
    ∃ m, Image.decode (Image.encode c.machine) = .ok m ∧
      ∀ ops, (d.restore m).watch o' ops = c.watch o ops := by
  refine ⟨c.machine, Image.decode_encode hwf, fun ops => ?_⟩
  exact watch_congr ⟨machine_restore d c.machine, hkey, hrandom⟩ ops

def midway : Core := { tally := { asked := 2, started := 1, drawn := 5 } : Core }.restore Image.midway

/-- A paused core with an old fault, nothing sensible on its screen and other calls behind it. -/
def wrecked : Core where
  board := {
    mode := .paused
    timers := { delay := 200 }
    screen := .replicate _ 7
    rate := 3
    fault := some (.stackOverflow 516) }
  tally := { asked := 9, sounding := true }

def everyThird : Surroundings where
  key n := if n % 3 = 0 then some (.ofNat (n % 16)) else none
  random n := .ofNat (7 * n)

/-- It answers like `everyThird`, to one who has asked seven questions more and drawn five bytes less. -/
def everyThirdLater : Surroundings where
  key n := everyThird.key (n - 7)
  random n := everyThird.random (n + 5)

theorem watch_restored_midway :
    midway.machine.WellFormed ∧ ∃ m, Image.decode (Image.encode midway.machine) = .ok m ∧
      (wrecked.restore m).watch everyThirdLater [.exec 0xF30A, .exec 0xF30A, .tick, .exec 0xC4FF, .step] =
        midway.watch everyThird [.exec 0xF30A, .exec 0xF30A, .tick, .exec 0xC4FF, .step] := by
  obtain ⟨m, hm, hwatch⟩ := watch_restored everyThird everyThirdLater midway wrecked Image.wellFormed_midway
    (fun n => congrArg everyThird.key (by show 9 + n - 7 = 2 + n; omega))
    (fun n => congrArg everyThird.random (by show 0 + n + 5 = 5 + n; omega))
  exact ⟨Image.wellFormed_midway, m, hm, hwatch _⟩

end Core

end ChipEight
