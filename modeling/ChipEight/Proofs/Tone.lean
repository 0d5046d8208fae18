import ChipEight.Console.Basic
import ChipEight.Proofs.Footprint
import ChipEight.Proofs.Runs

/-!
# The tone and the sound timer

A tone should sound just as long as the sound timer is not zero (`Core.InTune`).  The instruction clock starts it, the
timer clock stops it when it takes the timer to zero.  An instruction that sets the timer to zero while it runs
(`Core.CutsShort`) is seen by neither.

* `Core.inTune_step_iff`, `Core.inTune_beat` : one step and one tick.
* `Core.inTune_play_iff` : steps and ticks in any order leave the tone in line just as long as no step cuts it short.
* `Core.endless_tone` : a tone that was cut short is never stopped by a tick.
-/

namespace ChipEight

def Console.core (c : Console) (p : Processor) : Core := { processor := p, board := c.board, tally := c.tally }

namespace Core

/-- A tick of the timer clock, all at once: when it ends the tone, the tone is stopped. -/
def beat (c : Core) : Core :=
  let (board, silent) := c.board.tick
  { c with board, tally := if silent then c.tally.stopTone else c.tally }

/-- What the two clocks do. -/
inductive Beat where
  | step
  | tick
  deriving DecidableEq, Repr

def move (o : Surroundings) (c : Core) : Beat → Core
  | .step => (c.perform o .step).2
  | .tick => c.beat

/-- Steps and ticks one after the other. -/
def play (o : Surroundings) (c : Core) (beats : List Beat) : Core := beats.foldl (move o) c

/-- The tone sounds just when the sound timer is not zero. -/
def InTune (c : Core) : Prop := c.tally.sounding = true ↔ c.machine.sound ≠ 0

instance (c : Core) : Decidable c.InTune := inferInstanceAs (Decidable (_ ↔ _))

/-- The next step sets the sound timer to zero while it runs. -/
def CutsShort (c : Core) : Prop :=
  ∃ w, c.machine.Fetches w ∧ w.family = 0xF ∧ w.kk = 0x18 ∧ c.machine.reg w.x = 0 ∧ c.machine.sound ≠ 0

end Core

/-! ### One move -/

/-- Only from one does the countdown come to zero. -/
theorem Timers.countDown_ne_zero_iff {b : UInt8} (h : b ≠ 1) : countDown b ≠ 0 ↔ b ≠ 0 := by
  unfold countDown
  split
  · next hzero => simp [hzero]
  · next hzero =>
    refine iff_of_true (fun hone => h ?_) hzero
    rwa [UInt8.sub_eq_iff_eq_add, UInt8.zero_add] at hone

/-- A step calls what the word that it fetches calls. -/
theorem Machine.call?_eq_some_iff {m : Machine} {call : Call} :
    m.call? = some call ↔ ∃ w, m.Fetches w ∧ w.call? m = some call := by
  unfold call?
  constructor
  · intro h
    cases hw : m.memory.word m.pc with
    | error f =>
      rw [hw] at h
      cases h
    | ok w =>
      rw [hw] at h
      exact ⟨w, fetches_iff.mpr hw, h⟩
  · rintro ⟨w, hw, h⟩
    rw [fetches_iff.mp hw]
    exact h

theorem Tally.sounding_after (t : Tally) (call : Option Call) :
    (t.after call).sounding = if call = some .startTone then true else t.sounding := by
  rcases call with _ | _ | _ | _ <;> rfl

namespace Core

variable {c : Core}

theorem inTune_beat (h : c.InTune) : c.beat.InTune := by
  unfold InTune at *
  by_cases hone : c.machine.sound = 1
  · have hsilent : (c.board.timers.sound == 1) = true := beq_iff_eq.mpr hone
    have hsound : c.beat.machine.sound = 0 := congrArg Timers.countDown hone
    have hsounding : c.beat.tally.sounding = false := by
      simp only [beat, Board.tick, Timers.tick, hsilent, if_true]
      rfl
    rw [hsound, hsounding]
    decide
  · have hsilent : (c.board.timers.sound == 1) = false := beq_eq_false_iff_ne.mpr hone
    simp only [beat, Board.tick, Timers.tick, hsilent]
    exact h.trans (Timers.countDown_ne_zero_iff hone).symm

/-- A step keeps the tone in line unless it cuts it short. -/
theorem inTune_step_iff (o : Surroundings) (h : c.InTune) : (c.perform o .step).2.InTune ↔ ¬ c.CutsShort := by
  by_cases hw : ∃ w, c.machine.Fetches w ∧ w.family = 0xF ∧ w.kk = 0x18
  · obtain ⟨w, hw, hf, hkk⟩ := hw
    have hcuts : c.CutsShort ↔ c.machine.reg w.x = 0 ∧ c.machine.sound ≠ 0 := by
      constructor
      · rintro ⟨w', hw', -, -, hreg, hsound⟩
        rw [Machine.fetches_unique hw hw']
        exact ⟨hreg, hsound⟩
      · rintro ⟨hreg, hsound⟩
        exact ⟨w, hw, hf, hkk, hreg, hsound⟩
    have hstep : (c.session.step o).2 = ({ c.session with pc := c.session.pc + 2 }.exec o (.setSound w.x)).2 := by
      rw [Session.step_of_fetches o hw, Session.execWord_of_reads o _ (i := .setSound w.x) ⟨hf, hkk, rfl⟩]
    have hsound : (c.perform o .step).2.machine.sound = c.machine.reg w.x := congrArg (·.sound) hstep
    have hsounding : (c.perform o .step).2.tally =
        if c.machine.reg w.x = 0 then c.tally else c.tally.startTone := congrArg (·.tally) hstep
    rw [hcuts, InTune, hsound, hsounding]
    by_cases hreg : c.machine.reg w.x = 0
    · -- zero is written, and nobody is told: the tone is in line only if it was silent before
      have hnot : c.tally.sounding = true ↔ c.machine.sound ≠ 0 := h
      rw [if_pos hreg, hnot, hreg]
      simp
    · rw [if_neg hreg]
      exact iff_of_true (iff_of_true rfl hreg) fun hcut => hreg hcut.1
  · have hcuts : ¬ c.CutsShort := by
      rintro ⟨w, hfetch, hf, hkk, -⟩
      exact hw ⟨w, hfetch, hf, hkk⟩
    have hsound : (c.perform o .step).2.machine.sound = c.machine.sound :=
      c.session.same_step o (p := .sound) fun w hfetch hmay => hw ⟨w, hfetch, hmay⟩
    have hcall : c.machine.call? ≠ some .startTone := by
      intro hcall
      obtain ⟨w, hfetch, hcall⟩ := Machine.call?_eq_some_iff.mp hcall
      obtain ⟨hf, hkk, -⟩ := Word.call?_eq_startTone_iff.mp hcall
      exact hw ⟨w, hfetch, hf, hkk⟩
    have hsounding : (c.perform o .step).2.tally.sounding = c.tally.sounding := by
      rw [tally_perform, Op.call?, Tally.sounding_after, if_neg hcall]
    unfold InTune at *
    rw [hsound, hsounding]
    exact iff_of_true h hcuts

/-! ### Whole runs -/

theorem play_append (o : Surroundings) (c : Core) (beats beats' : List Beat) :
    c.play o (beats ++ beats') = (c.play o beats).play o beats' := List.foldl_append ..

theorem inTune_of_not_cutsShort (o : Surroundings) (h : c.InTune) {beats : List Beat}
    (hcuts : ∀ before, before ++ [.step] <+: beats → ¬ (c.play o before).CutsShort) : (c.play o beats).InTune := by
  induction beats using List.reverseRecOn with
  | nil => exact h
  | append_singleton beats b ih =>
    have hbefore := ih fun before hp => hcuts before (hp.trans (List.prefix_append beats [b]))
    rw [play_append]
    cases b with
    | step => exact (inTune_step_iff o hbefore).mpr (hcuts beats (List.prefix_refl _))
    | tick => exact inTune_beat hbefore

/-- **The tone follows the sound timer unless an instruction cuts it short.**  From a core whose tone is in line, through
steps and ticks in any order, it is in line after each of them if and only if no step sets the sound timer to zero
while it runs. -/
theorem inTune_play_iff (o : Surroundings) (h : c.InTune) (beats : List Beat) :
    (∀ played, played <+: beats → (c.play o played).InTune) ↔
      ∀ before, before ++ [.step] <+: beats → ¬ (c.play o before).CutsShort := by
  constructor
  · intro htune before hstep
    have hbefore := htune before ((List.prefix_append before [.step]).trans hstep)
    have hafter := htune _ hstep
    rw [play_append] at hafter
    exact (inTune_step_iff o hbefore).mp hafter
  · intro hcuts played hplayed
    exact inTune_of_not_cutsShort o h fun before hp => hcuts before (hp.trans hplayed)

/-- A program that sets the sound timer to five, then to zero, and then does nothing more. -/
def overwriting : Core where
  processor := { Processor.powerOn with
    memory := Bytes.put (.replicate _ 0) Memory.programStart [0x60, 0x05, 0xF0, 0x18, 0x60, 0x00, 0xF0, 0x18, 0x12, 0x08] }

theorem inTune_play_overwriting :
    overwriting.InTune ∧
      ¬ ∀ played, played <+: List.replicate 4 .step → (overwriting.play .quiet played).InTune := by
  have hstart : overwriting.InTune := by decide
  refine ⟨hstart, fun htune => ?_⟩
  refine (inTune_play_iff .quiet hstart (List.replicate 4 .step)).mp htune (List.replicate 3 .step) ⟨[], rfl⟩ ?_
  exact ⟨0xF018, Machine.fetches_iff.mpr (by decide +kernel), by decide, by decide, by decide +kernel, by decide +kernel⟩

/-- With the sound timer at zero a tick stops no tone. -/
theorem play_ticks {c : Core} (o : Surroundings) (h : c.machine.sound = 0) (n : Nat) :
    (c.play o (List.replicate n .tick)).machine.sound = 0 ∧ (c.play o (List.replicate n .tick)).tally = c.tally := by
  induction n generalizing c with
  | zero => exact ⟨h, rfl⟩
  | succ n ih =>
    have hzero : c.board.timers.sound = 0 := h
    have hsound : c.beat.machine.sound = 0 := congrArg Timers.countDown hzero
    have htally : c.beat.tally = c.tally := by
      simp only [beat, Board.tick, Timers.tick, hzero]
      rfl
    obtain ⟨hlast, hsame⟩ := ih hsound
    exact ⟨hlast, hsame.trans htally⟩

/-- A tone that was cut short sounds for ever: the sound timer is zero, and no tick stops the tone. -/
theorem endless_tone :
    overwriting.InTune ∧
      ∀ n, (overwriting.play .quiet (List.replicate 4 .step ++ List.replicate n .tick)).machine.sound = 0 ∧
        (overwriting.play .quiet (List.replicate 4 .step ++ List.replicate n .tick)).tally.sounding = true := by
  have hsound : (overwriting.play .quiet (List.replicate 4 .step)).machine.sound = 0 := by decide +kernel
  have hsounding : (overwriting.play .quiet (List.replicate 4 .step)).tally.sounding = true := by decide +kernel
  refine ⟨by decide, fun n => ?_⟩
  obtain ⟨hzero, htally⟩ := play_ticks .quiet hsound n
  rw [play_append, htally]
  exact ⟨hzero, hsounding⟩

end Core

end ChipEight
