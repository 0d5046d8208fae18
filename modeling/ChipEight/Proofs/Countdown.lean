import ChipEight.Proofs.NoHazard
import ChipEight.Console.Metronome
import ChipEight.Proofs.Tone
import Mathlib.Algebra.BigOperators.Group.Finset.Basic
import Mathlib.Data.Nat.Count

/-!
# Counting down

Ticks come between writes of the two timers, in any order.  Each timer counts the ticks since it was last written; a
tick tells that the sound timer is over, once for every time that it is.

* `Timers.Access`, `Timers.play`, `Timers.told` : ticks and writes in any order, and what the ticks tell.
* `Core.timers_perform` : whatever is done with a core, this is all that is done with the timers.
* `Timers.CountsDown` : how the timers count, and what is told of it.
* `Console.Pulses` : the moves of the timer clock, while others do what they like with the rest of the console.
* `Console.Signals` : it stops the tone once for each time that the sound timer is over, and once when it leaves.
* `Console.countdown` : all timers count like this, and every timer clock signals like this.
-/

namespace ChipEight

namespace Timers

/-- What is done with the timers at one go. -/
inductive Access where
  | tick
  | delay (b : UInt8)
  | sound (b : UInt8)
  deriving DecidableEq, Repr

/-- The timers after an access, and whether it has told that the tone is over. -/
def access (t : Timers) : Access → Timers × Bool
  | .tick => t.tick
  | .delay b => ({ t with delay := b }, false)
  | .sound b => ({ t with sound := b }, false)

def play (t : Timers) (as : List Access) : Timers := as.foldl (fun t a => (t.access a).1) t

/-- What the ticks among the accesses tell. -/
def told (t : Timers) : List Access → List Bool
  | [] => []
  | .tick :: as => t.tick.2 :: t.tick.1.told as
  | a :: as => (t.access a).1.told as

def Access.writesDelay : Access → Bool
  | .delay _ => true
  | _ => false

def Access.writesSound : Access → Bool
  | .sound _ => true
  | _ => false

/-- **How the timers count.** -/
structure CountsDown (t : Timers) : Prop where
  /-- Ticks alone: each timer loses one with each tick until it is at zero, and the tone ends with the tick that has the
  number of the sound timer. -/
  ticks (n : Nat) :
    (t.ticks n).1.delay.toNat = t.delay.toNat - n ∧ (t.ticks n).1.sound.toNat = t.sound.toNat - n ∧
      (t.ticks n).2 = if 1 ≤ t.sound.toNat ∧ t.sound.toNat ≤ n then [t.sound.toNat] else []
  /-- After whatever accesses, a tick takes nothing from zero, and tells that the tone is over iff it takes the sound timer
  from one to zero. -/
  tick (as : List Access) :
    Checked.tick (t.play as) = .ok (t.play as).tick ∧
      ((t.play as).tick.2 = true ↔ (t.play as).sound = 1 ∧ (t.play as).tick.1.sound = 0)
  /-- Until the sound timer is written, it counts the ticks, and they tell only when it is over. -/
  sound (as : List Access) (h : ∀ a ∈ as, a.writesSound = false) :
    (t.play as).sound.toNat = t.sound.toNat - as.count .tick ∧
      t.told as = (List.range (as.count .tick)).map fun k => decide (k + 1 = t.sound.toNat)
  delay (as : List Access) (h : ∀ a ∈ as, a.writesDelay = false) :
    (t.play as).delay.toNat = t.delay.toNat - as.count .tick
  /-- From a write of the sound timer on, it counts the ticks since, from what was written, and so it is told. -/
  sound_written (before since : List Access) (b : UInt8) (h : ∀ a ∈ since, a.writesSound = false) :
    (t.play (before ++ .sound b :: since)).sound.toNat = b.toNat - since.count .tick ∧
      t.told (before ++ .sound b :: since) =
        t.told before ++ (List.range (since.count .tick)).map fun k => decide (k + 1 = b.toNat)
  delay_written (before since : List Access) (b : UInt8) (h : ∀ a ∈ since, a.writesDelay = false) :
    (t.play (before ++ .delay b :: since)).delay.toNat = b.toNat - since.count .tick
  /-- Writes of the one timer are nothing to the other, nor to what is told. -/
  apart (as : List Access) :
    (t.play as).sound = (t.play (as.filter (!·.writesDelay))).sound ∧
      t.told as = t.told (as.filter (!·.writesDelay)) ∧
      (t.play as).delay = (t.play (as.filter (!·.writesSound))).delay

/-! ### Ticks and writes -/

variable (t : Timers)

theorem play_append (as as' : List Access) : t.play (as ++ as') = (t.play as).play as' := List.foldl_append

theorem told_append (as as' : List Access) : t.told (as ++ as') = t.told as ++ (t.play as).told as' := by
  induction as generalizing t with
  | nil => rfl
  | cons a as ih =>
    cases a with
    | tick => exact congrArg (t.tick.2 :: ·) (ih t.tick.1)
    | delay b | sound b => exact ih _

theorem toNat_countDown (b : UInt8) : (countDown b).toNat = b.toNat - 1 := by
  unfold countDown
  split
  · next hzero =>
    rw [hzero]
    rfl
  · next hzero =>
    have hpos : 1 ≤ b := UInt8.pos_iff_ne_zero.mpr hzero
    exact UInt8.toNat_sub_of_le b 1 hpos

theorem tick_snd_eq : t.tick.2 = decide (1 = t.sound.toNat) := by
  show (t.sound == 1) = _
  rw [Bool.eq_iff_iff, beq_iff_eq, decide_eq_true_eq, ← UInt8.toNat_inj, eq_comm]
  rfl

theorem tick_snd_iff : t.tick.2 = true ↔ t.sound = 1 ∧ t.tick.1.sound = 0 := by
  have hover : t.tick.2 = true ↔ t.sound = 1 := beq_iff_eq
  rw [hover]
  refine ⟨fun hone => ⟨hone, ?_⟩, And.left⟩
  show countDown t.sound = 0
  rw [hone]
  rfl

theorem toNat_ticks (n : Nat) :
    (t.ticks n).1.delay.toNat = t.delay.toNat - n ∧ (t.ticks n).1.sound.toNat = t.sound.toNat - n := by
  induction n with
  | zero => exact ⟨rfl, rfl⟩
  | succ n ih =>
    have hdelay : (t.ticks (n + 1)).1.delay.toNat = (t.ticks n).1.delay.toNat - 1 := toNat_countDown _
    have hsound : (t.ticks (n + 1)).1.sound.toNat = (t.ticks n).1.sound.toNat - 1 := toNat_countDown _
    rw [hdelay, hsound, ih.1, ih.2]
    exact ⟨rfl, rfl⟩

theorem ticks_snd (n : Nat) :
    (t.ticks n).2 = if 1 ≤ t.sound.toNat ∧ t.sound.toNat ≤ n then [t.sound.toNat] else [] := by
  induction n with
  | zero =>
    rw [if_neg (by omega)]
    rfl
  | succ n ih =>
    have hover : (t.ticks n).1.tick.2 = true ↔ t.sound.toNat = n + 1 := by
      rw [tick_snd_eq, (t.toNat_ticks n).2, decide_eq_true_eq]
      omega
    rw [ticks_succ, ih]
    by_cases hlast : t.sound.toNat = n + 1
    · simp only [hover.mpr hlast, if_true]
      rw [if_neg (by omega), if_pos (by omega), hlast]
      rfl
    · simp only [hover, if_neg hlast]
      exact if_congr (by omega) rfl rfl

theorem sound_play {as : List Access} (h : ∀ a ∈ as, a.writesSound = false) :
    (t.play as).sound.toNat = t.sound.toNat - as.count .tick ∧
      t.told as = (List.range (as.count .tick)).map fun k => decide (k + 1 = t.sound.toNat) := by
  induction as generalizing t with
  | nil => exact ⟨rfl, rfl⟩
  | cons a as ih =>
    have htail : ∀ a ∈ as, a.writesSound = false := fun a ha => h a (List.mem_cons_of_mem _ ha)
    cases a with
    | sound b => exact absurd (h (.sound b) List.mem_cons_self) nofun
    | delay b =>
      have hcount : (Access.delay b :: as).count .tick = as.count .tick := List.count_cons_of_ne (by rintro ⟨⟩)
      rw [hcount]
      exact ih { t with delay := b } htail
    | tick =>
      have hsound : t.tick.1.sound.toNat = t.sound.toNat - 1 := toNat_countDown _
      obtain ⟨hplay, htold⟩ := ih t.tick.1 htail
      have hplayed : t.play (.tick :: as) = t.tick.1.play as := rfl
      rw [List.count_cons_self, hplayed, hplay, hsound, told, htold, hsound, tick_snd_eq, List.range_succ_eq_map,
        List.map_cons, List.map_map]
      refine ⟨by omega, congrArg _ (List.map_congr_left fun k _ => decide_eq_decide.mpr ?_)⟩
      omega

theorem delay_play {as : List Access} (h : ∀ a ∈ as, a.writesDelay = false) :
    (t.play as).delay.toNat = t.delay.toNat - as.count .tick := by
  induction as generalizing t with
  | nil => rfl
  | cons a as ih =>
    have htail : ∀ a ∈ as, a.writesDelay = false := fun a ha => h a (List.mem_cons_of_mem _ ha)
    cases a with
    | delay b => exact absurd (h (.delay b) List.mem_cons_self) nofun
    | sound b =>
      have hcount : (Access.sound b :: as).count .tick = as.count .tick := List.count_cons_of_ne (by rintro ⟨⟩)
      rw [hcount]
      exact ih { t with sound := b } htail
    | tick =>
      have hdelay : t.tick.1.delay.toNat = t.delay.toNat - 1 := toNat_countDown _
      have hplayed : t.play (.tick :: as) = t.tick.1.play as := rfl
      rw [List.count_cons_self, hplayed, ih t.tick.1 htail, hdelay]
      omega

/-- Timers with the same sound timer sound alike, whatever is written to the other one. -/
theorem sound_play_filter {t t' : Timers} (h : t.sound = t'.sound) (as : List Access) :
    (t.play as).sound = (t'.play (as.filter (!·.writesDelay))).sound ∧
      t.told as = t'.told (as.filter (!·.writesDelay)) := by
  induction as generalizing t t' with
  | nil => exact ⟨h, rfl⟩
  | cons a as ih =>
    cases a with
    | delay b => exact @ih { t with delay := b } t' h
    | sound b => exact @ih { t with sound := b } { t' with sound := b } rfl
    | tick =>
      have hsame : t.tick.1.sound = t'.tick.1.sound := congrArg countDown h
      have htells : t.tick.2 = t'.tick.2 := congrArg (· == 1) h
      obtain ⟨hplay, htold⟩ := ih hsame
      exact ⟨hplay, List.cons_eq_cons.mpr ⟨htells, htold⟩⟩

theorem delay_play_filter {t t' : Timers} (h : t.delay = t'.delay) (as : List Access) :
    (t.play as).delay = (t'.play (as.filter (!·.writesSound))).delay := by
  induction as generalizing t t' with
  | nil => exact h
  | cons a as ih =>
    cases a with
    | sound b => exact @ih { t with sound := b } t' h
    | delay b => exact @ih { t with delay := b } { t' with delay := b } rfl
    | tick => exact ih (congrArg countDown h)

theorem countsDown : t.CountsDown where
  ticks n := ⟨(t.toNat_ticks n).1, (t.toNat_ticks n).2, t.ticks_snd n⟩
  tick as := ⟨Checked.tick_eq _, tick_snd_iff _⟩
  sound as h := t.sound_play h
  delay as h := t.delay_play h
  sound_written before since b h := by
    rw [play_append, told_append]
    obtain ⟨hplay, htold⟩ := ({ t.play before with sound := b } : Timers).sound_play h
    exact ⟨hplay, congrArg _ htold⟩
  delay_written before since b h := by
    rw [play_append]
    exact ({ t.play before with delay := b } : Timers).delay_play h
  apart as := ⟨(sound_play_filter rfl as).1, (sound_play_filter rfl as).2, delay_play_filter rfl as⟩

end Timers

/-! ### Operations -/

def Word.accesses (m : Machine) (w : Word) : List Timers.Access :=
  if w.family = 0xF ∧ w.kk = 0x15 then [.delay (m.reg w.x)]
  else if w.family = 0xF ∧ w.kk = 0x18 then [.sound (m.reg w.x)]
  else []

def Machine.accesses (m : Machine) : List Timers.Access :=
  match m.memory.word m.pc with
  | .ok w => w.accesses m
  | .error _ => []

/-- How an operation accesses the timers. -/
def Core.accesses (c : Core) : Op → List Timers.Access
  | .step => c.machine.accesses
  | .exec w => w.accesses c.machine
  | .tick => [.tick]
  | .reset => [.delay 0, .sound 0]
  | .restore m => [.delay m.delay, .sound m.sound]

theorem Session.timers_execWord (o : Surroundings) (s : Session) (w : Word) :
    (s.execWord o w).2.toTimers = s.toTimers.play (w.accesses s.toMachine) := by
  unfold Word.accesses
  by_cases hdelay : w.family = 0xF ∧ w.kk = 0x15
  · rw [if_pos hdelay, s.execWord_of_reads o (i := .setDelay w.x) ⟨hdelay.1, hdelay.2, rfl⟩]
    rfl
  by_cases hsound : w.family = 0xF ∧ w.kk = 0x18
  · rw [if_neg hdelay, if_pos hsound, s.execWord_of_reads o (i := .setSound w.x) ⟨hsound.1, hsound.2, rfl⟩]
    rfl
  · have hsame : (s.execWord o w).2.delay = s.delay := s.same_execWord o (p := .delay) hdelay
    have hsame' : (s.execWord o w).2.sound = s.sound := s.same_execWord o (p := .sound) hsound
    rw [if_neg hdelay, if_neg hsound]
    exact congrArg₂ Timers.mk hsame hsame'

theorem Session.timers_step (o : Surroundings) (s : Session) :
    (s.step o).2.toTimers = s.toTimers.play s.toMachine.accesses := by
  unfold step Machine.accesses
  cases s.memory.word s.pc with
  | error f => rfl
  | ok w => exact timers_execWord o { s with pc := s.pc + 2 } w

/-- **Whatever is done with a core, its timers are accessed like this.** -/
theorem Core.timers_perform (o : Surroundings) (c : Core) (op : Op) :
    (c.perform o op).2.board.timers = c.board.timers.play (c.accesses op) := by
  cases op with
  | step => exact c.session.timers_step o
  | exec w => exact c.session.timers_execWord o w
  | tick | reset | restore m => rfl

/-! ### The timer clock -/

namespace Console

/-- A turn of the timer clock, if it is alive; `fatal` tells whether stopping the tone takes it down. -/
def pulse (sc : Scenario) (due fatal : Bool) (c : Console) : Console :=
  (c.moveMetronome? { sc with silencingKills := fatal } due).getD c

/-- The consoles that the timer clock finds at its turns.  Between two of them others do what they like with the rest of
the console. -/
def Pulses (sc : Scenario) (due fatal : Nat → Bool) (found : Nat → Console) : Prop :=
  ∀ n, (found (n + 1)).metronome = ((found n).pulse sc (due n) (fatal n)).metronome

def EndsTone (c : Console) : Prop := c.metronome = .live .ticking ∧ c.board.timers.sound = 1

instance (c : Console) : Decidable c.EndsTone := inferInstanceAs (Decidable (_ ∧ _))

/-- How often the timer clock has stopped the tone in its first `n` turns. -/
def stops (sc : Scenario) (due fatal : Nat → Bool) (found : Nat → Console) (n : Nat) : Nat :=
  ∑ k ∈ Finset.range n, (((found k).pulse sc (due k) (fatal k)).tally.stopped - (found k).tally.stopped)

/-- **What a timer clock does**, told turn by turn. -/
structure Signals (sc : Scenario) (due fatal : Nat → Bool) (found : Nat → Console) : Prop where
  /-- It ticks where it has seen the run state `running` and a tick was due. -/
  begins (n : Nat) : (found (n + 1)).metronome = .live .ticking →
    (found n).metronome = .live .looking ∧ (found n).board.mode = .running ∧ due n = true
  /-- A tick is all that it does to what is shared. -/
  ticks (n : Nat) : ((found n).pulse sc (due n) (fatal n)).board =
    if (found n).metronome = .live .ticking then (found n).board.tick.1 else (found n).board
  /-- It never starts a tone: where a turn calls at all, it stops the tone, once. -/
  calls (n : Nat) : ((found n).pulse sc (due n) (fatal n)).tally = (found n).tally ∨
    ((found n).pulse sc (due n) (fatal n)).tally = (found n).tally.stopTone
  /-- While it is there, it has stopped the tone once for each tick that has ended it, the last of which it may be about to
  answer. -/
  stopped (n : Nat) (m : Metronome) : (found n).metronome = .live m →
    stops sc due fatal found n + (if m = .silencing then 1 else 0) = Nat.count (fun k => (found k).EndsTone) n
  /-- When it has left, it has stopped the tone once more. -/
  left (n : Nat) : (found n).metronome = .ended () →
    stops sc due fatal found n = Nat.count (fun k => (found k).EndsTone) n + 1
  /-- It leaves where it has seen the run state `stopped`. -/
  leaves (n : Nat) : (found (n + 1)).metronome = .live .leaving →
    (found n).metronome = .live .looking ∧ (found n).board.mode = .stopped
  /-- From then on it takes at most four turns. -/
  ends (n : Nat) : (∀ k, fatal k = false) → (∀ k ≥ n, (found k).board.mode = .stopped) →
    (found (n + 4)).metronome = .ended ()

variable {sc : Scenario} {c : Console} {m : Metronome}

theorem pulse_of_live (hlive : c.metronome = .live m) (due fatal : Bool) :
    c.pulse sc due fatal = c.metronomeMove { sc with silencingKills := fatal } due m := by
  rw [pulse, moveMetronome?, hlive]
  rfl

theorem pulse_of_not_live (hgone : ∀ m, c.metronome ≠ .live m) (due fatal : Bool) : c.pulse sc due fatal = c := by
  unfold pulse moveMetronome?
  split
  · next m hlive => exact absurd hlive (hgone m)
  · rfl

/-- What a turn of a timer clock leaves. -/
inductive Pulsed (due fatal : Bool) (c : Console) : Console → Prop
  | stays (hlive : c.metronome = .live .looking) (hmode : c.board.mode ≠ .stopped) : Pulsed due fatal c c
  | begins (hlive : c.metronome = .live .looking) (hmode : c.board.mode = .running) (hdue : due = true) :
      Pulsed due fatal c (c.metronomeAt .ticking)
  | leaves (hlive : c.metronome = .live .looking) (hmode : c.board.mode = .stopped) :
      Pulsed due fatal c (c.metronomeAt .leaving)
  | ends (hlive : c.metronome = .live .ticking) (hsound : c.board.timers.sound = 1) :
      Pulsed due fatal c { c with board := c.board.tick.1, metronome := .live .silencing }
  | ticks (hlive : c.metronome = .live .ticking) (hsound : c.board.timers.sound ≠ 1) :
      Pulsed due fatal c { c with board := c.board.tick.1, metronome := .live .looking }
  | silences (hlive : c.metronome = .live .silencing) :
      Pulsed due fatal c { c with tally := c.tally.stopTone, metronome := if fatal then .died else .live .looking }
  | left (hlive : c.metronome = .live .leaving) :
      Pulsed due fatal c { c with tally := c.tally.stopTone, metronome := if fatal then .died else .ended () }
  | gone (hgone : ∀ m, c.metronome ≠ .live m) : Pulsed due fatal c c

theorem pulsed (sc : Scenario) (due fatal : Bool) (c : Console) : c.Pulsed due fatal (c.pulse sc due fatal) := by
  by_cases hlives : ∃ m, c.metronome = .live m
  · obtain ⟨m, hlive⟩ := hlives
    rw [pulse_of_live hlive]
    cases m with
    | looking =>
      simp only [metronomeMove]
      cases hmode : c.board.mode with
      | stopped => exact .leaves hlive hmode
      | paused => exact .stays hlive (by rw [hmode]; rintro ⟨⟩)
      | running =>
        cases due with
        | true => exact .begins hlive hmode rfl
        | false => exact .stays hlive (by rw [hmode]; rintro ⟨⟩)
    | ticking =>
      by_cases hsound : c.board.timers.sound = 1
      · have hsilent : c.board.tick.2 = true := beq_iff_eq.mpr hsound
        have hends : c.Pulsed due fatal { c with board := c.board.tick.1, metronome := .live .silencing } :=
          .ends hlive hsound
        simp only [metronomeMove, hsilent, if_true]
        exact hends
      · have hsilent : c.board.tick.2 = false := beq_eq_false_iff_ne.mpr hsound
        have hticks : c.Pulsed due fatal { c with board := c.board.tick.1, metronome := .live .looking } :=
          .ticks hlive hsound
        simp only [metronomeMove, hsilent]
        exact hticks
    | silencing => exact .silences hlive
    | leaving => exact .left hlive
  · rw [pulse_of_not_live (not_exists.mp hlives)]
    exact .gone (not_exists.mp hlives)

theorem board_pulse (sc : Scenario) (due fatal : Bool) (c : Console) :
    (c.pulse sc due fatal).board = if c.metronome = .live .ticking then c.board.tick.1 else c.board := by
  have hpulsed := pulsed sc due fatal c
  generalize c.pulse sc due fatal = c' at hpulsed ⊢
  cases hpulsed with
  | ends hlive | ticks hlive => rw [if_pos hlive]
  | stays hlive | begins hlive | leaves hlive | silences hlive | left hlive => rw [hlive]; rfl
  | gone hgone => rw [if_neg (hgone _)]

theorem tally_pulse (sc : Scenario) (due fatal : Bool) (c : Console) :
    (c.pulse sc due fatal).tally = c.tally ∨ (c.pulse sc due fatal).tally = c.tally.stopTone := by
  have hpulsed := pulsed sc due fatal c
  generalize c.pulse sc due fatal = c' at hpulsed ⊢
  cases hpulsed with
  | stays | begins | leaves | ends | ticks | gone => exact .inl rfl
  | silences | left => exact .inr rfl

/-- Where a timer clock goes on when it has looked at the run state. -/
theorem of_pulse_live {due fatal : Bool} (hlive : (c.pulse sc due fatal).metronome = .live m) :
    (m = .ticking → c.metronome = .live .looking ∧ c.board.mode = .running ∧ due = true) ∧
      (m = .leaving → c.metronome = .live .looking ∧ c.board.mode = .stopped) := by
  have hpulsed := pulsed sc due fatal c
  generalize c.pulse sc due fatal = c' at hpulsed hlive
  cases hpulsed with
  | stays hlooking =>
    cases hlooking.symm.trans hlive
    exact ⟨nofun, nofun⟩
  | begins hlooking hmode hdue =>
    cases hlive
    exact ⟨fun _ => ⟨hlooking, hmode, hdue⟩, nofun⟩
  | leaves hlooking hmode =>
    cases hlive
    exact ⟨nofun, fun _ => ⟨hlooking, hmode⟩⟩
  | ends | ticks =>
    cases hlive
    exact ⟨nofun, nofun⟩
  | silences =>
    cases fatal <;> cases hlive
    exact ⟨nofun, nofun⟩
  | left => cases fatal <;> cases hlive
  | gone hgone => exact absurd hlive (hgone m)

/-- The stop that a timer clock still has to make. -/
def owed : Thread Metronome Unit → Nat
  | .live .silencing => 1
  | _ => 0

/-- The stop that a timer clock has made because it leaves. -/
def farewell : Thread Metronome Unit → Nat
  | .ended () => 1
  | _ => 0

/-- In a turn that no call takes down, the stops come out even. -/
theorem stopped_pulse (sc : Scenario) (due fatal : Bool) (c : Console) (hdied : (c.pulse sc due fatal).metronome ≠ .died) :
    (c.pulse sc due fatal).tally.stopped - c.tally.stopped + owed (c.pulse sc due fatal).metronome +
        farewell c.metronome =
      owed c.metronome + (if c.EndsTone then 1 else 0) + farewell (c.pulse sc due fatal).metronome := by
  have hpulsed := pulsed sc due fatal c
  generalize c.pulse sc due fatal = c' at hpulsed hdied ⊢
  cases hpulsed with
  | stays hlive | begins hlive | leaves hlive => simp [EndsTone, owed, farewell, metronomeAt, hlive]
  | ends hlive hsound | ticks hlive hsound => simp [EndsTone, owed, farewell, hlive, hsound]
  | silences hlive | left hlive =>
    cases fatal with
    | true => exact absurd rfl hdied
    | false => simp [EndsTone, owed, farewell, hlive, Tally.stopTone]
  | gone hgone => simp [EndsTone, hgone]

namespace Pulses

variable {due fatal : Nat → Bool} {found : Nat → Console} {n : Nat}

theorem metronome (h : Pulses sc due fatal found) (n : Nat) :
    (found (n + 1)).metronome = ((found n).pulse sc (due n) (fatal n)).metronome := h n

/-- Over a run the stops come out even. -/
theorem stops_add (h : Pulses sc due fatal found) (hstart : (found 0).metronome = .live .looking)
    (hdied : (found n).metronome ≠ .died) :
    stops sc due fatal found n + owed (found n).metronome =
      Nat.count (fun k => (found k).EndsTone) n + farewell (found n).metronome := by
  induction n with
  | zero =>
    rw [hstart]
    rfl
  | succ n ih =>
    rw [h.metronome n] at hdied
    have hbefore : (found n).metronome ≠ .died := by
      intro hgone
      refine hdied ?_
      rw [pulse_of_not_live (fun m => hgone ▸ nofun), hgone]
    have hturn := stopped_pulse sc (due n) (fatal n) (found n) hdied
    have hsofar := ih hbefore
    rw [stops, Finset.sum_range_succ, ← stops, Nat.count_succ, h.metronome n]
    omega

/-- A timer clock that no call takes down is there, or has left. -/
theorem lives_or_left (h : Pulses sc due fatal found) (hstart : (found 0).metronome = .live .looking)
    (hfatal : ∀ k, fatal k = false) (n : Nat) :
    (∃ m, (found n).metronome = .live m) ∨ (found n).metronome = .ended () := by
  induction n with
  | zero => exact .inl ⟨_, hstart⟩
  | succ n ih =>
    have hpulsed := pulsed sc (due n) (fatal n) (found n)
    rw [h.metronome n]
    generalize (found n).pulse sc (due n) (fatal n) = c' at hpulsed ⊢
    cases hpulsed with
    | stays | gone => exact ih
    | begins | leaves | ends | ticks => exact .inl ⟨_, rfl⟩
    | silences => exact .inl ⟨.looking, by rw [hfatal n]; rfl⟩
    | left => exact .inr (by rw [hfatal n]; rfl)

end Pulses

/-- How many turns it takes at most to leave when the run state is `stopped`. -/
def turnsLeft : Thread Metronome Unit → Nat
  | .live .ticking => 4
  | .live .silencing => 3
  | .live .looking => 2
  | .live .leaving => 1
  | _ => 0

/-- Where the run state is `stopped`, every turn brings a timer clock nearer to its end. -/
theorem turnsLeft_pulse (sc : Scenario) (due : Bool) (hmode : c.board.mode = .stopped) :
    turnsLeft (c.pulse sc due false).metronome ≤ turnsLeft c.metronome - 1 := by
  have hpulsed := pulsed sc due false c
  generalize c.pulse sc due false = c' at hpulsed ⊢
  cases hpulsed with
  | stays hlive hnot => exact absurd hmode hnot
  | begins hlive hrunning =>
    rw [hmode] at hrunning
    cases hrunning
  | leaves hlive | ends hlive | ticks hlive | silences hlive | left hlive => simp [turnsLeft, metronomeAt, hlive]
  | gone hgone =>
    unfold turnsLeft
    split
    all_goals first | rfl | exact absurd ‹_› (hgone _)

theorem turnsLeft_pos (m : Metronome) : 0 < turnsLeft (.live m) := by
  cases m <;> decide

theorem turnsLeft_le (t : Thread Metronome Unit) : turnsLeft t ≤ 4 := by
  unfold turnsLeft
  split <;> decide

namespace Pulses

variable {due fatal : Nat → Bool} {found : Nat → Console} {n : Nat}

theorem ends (h : Pulses sc due fatal found) (hstart : (found 0).metronome = .live .looking)
    (hfatal : ∀ k, fatal k = false) (hstopped : ∀ k ≥ n, (found k).board.mode = .stopped) :
    (found (n + 4)).metronome = .ended () := by
  have hless (d : Nat) : turnsLeft (found (n + d)).metronome ≤ 4 - d := by
    induction d with
    | zero => exact turnsLeft_le _
    | succ d ih =>
      have hturn := turnsLeft_pulse sc (due (n + d)) (hstopped (n + d) (Nat.le_add_right n d))
      rw [← Nat.add_assoc, h.metronome (n + d), hfatal (n + d)]
      omega
  rcases h.lives_or_left hstart hfatal (n + 4) with ⟨m, hlive⟩ | hended
  · have hpos := turnsLeft_pos m
    have hnone := hless 4
    rw [hlive] at hnone
    omega
  · exact hended

/-- **A timer clock signals the end of every tone once**, whatever the others do to timers and run state in the meantime,
and it stops the tone once more when it leaves. -/
theorem signals (h : Pulses sc due fatal found) (hstart : (found 0).metronome = .live .looking) :
    Signals sc due fatal found where
  begins n hticking := (of_pulse_live ((h.metronome n).symm.trans hticking)).1 rfl
  ticks n := board_pulse ..
  calls n := tally_pulse ..
  stopped n m hlive := by
    have hdied : (found n).metronome ≠ .died := by
      rw [hlive]
      rintro ⟨⟩
    have heven := h.stops_add hstart hdied
    rw [hlive] at heven
    cases m <;> exact heven
  left n hended := by
    have hdied : (found n).metronome ≠ .died := by
      rw [hended]
      rintro ⟨⟩
    have heven := h.stops_add hstart hdied
    rwa [hended] at heven
  leaves n hleaving := (of_pulse_live ((h.metronome n).symm.trans hleaving)).2 rfl
  ends n hfatal hstopped := h.ends hstart hfatal hstopped

end Pulses

/-- **Timers count down exactly, and every end is signalled once.**  Any timers count like this, through ticks and writes
in any order, and whatever is done with a core comes to such ticks and writes; and a timer clock stops the tone once for
each tick that takes the sound timer to zero, and once when it leaves. -/
theorem countdown {due fatal : Nat → Bool} {found : Nat → Console} (h : Pulses sc due fatal found)
    (hstart : (found 0).metronome = .live .looking) :
    (∀ t : Timers, t.CountsDown) ∧
      (∀ (o : Surroundings) (c : Core) (op : Core.Op),
        (c.perform o op).2.board.timers = c.board.timers.play (c.accesses op)) ∧
      Signals sc due fatal found :=
  ⟨Timers.countsDown, Core.timers_perform, h.signals hstart⟩

/-- The turns of a timer clock with two ticks to go; after the seventh the run is stopped, and the sound timer written. -/
def ringing : Nat → Console
  | 0 => { board := { mode := .running, timers := { delay := 3, sound := 2 } }, metronome := .live .looking }
  | n + 1 =>
    let c := (ringing n).pulse { Surroundings.quiet with } true false
    if n = 6 then { c with board := { c.board with mode := .stopped, timers := { delay := 9, sound := 1 } } } else c

/-- One tone has ended, and one stop was made on leaving; the tone that was only just written is not waited for. -/
theorem countdown_ringing :
    (ringing 9).metronome = .ended () ∧
      stops { Surroundings.quiet with } (fun _ => true) (fun _ => false) ringing 9 = 2 := by
  have hpulses : Pulses { Surroundings.quiet with } (fun _ => true) (fun _ => false) ringing := by
    intro n
    show (if n = 6 then _ else _ : Console).metronome = _
    split <;> rfl
  obtain ⟨-, -, hsignals⟩ := countdown hpulses rfl
  have hended : (ringing 9).metronome = .ended () := by decide +kernel
  have hcount : Nat.count (fun k => (ringing k).EndsTone) 9 = 1 := by decide +kernel
  have hstops := hsignals.left 9 hended
  rw [hcount] at hstops
  exact ⟨hended, hstops⟩

end Console

end ChipEight
