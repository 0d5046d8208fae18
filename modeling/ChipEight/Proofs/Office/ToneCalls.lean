import ChipEight.Proofs.Office.Silence
import ChipEight.Proofs.Office.Stopped

/-!
# The last call about the tone

Tone and sound timer are brought in line by calls.  The timer clock (`run_timer`) stops the tone after the tick that
takes the timer to zero, and once more when it leaves; the desk starts or stops it when it has begun a run or replaced
the machine (`sync_tone`).  Timer and tone are not read and set at once, so such a call can come late.

* `Console.InTune` : the tone is what the timer clock would have it be.
* `Console.ToneKept` : the tone is out of tune just if the last call has left it so, unless the timer clock is about to
  stop it.
* `Console.PlainMove`, `Console.toneKept_plainMove` : the clocks keep it so, as long as no FX18 is executed and the
  machine is not replaced.
* `Turn.Latest` : what is so of the last turn of a kind.
* `Office.CallsLate`, `Office.LastToneCallLate` : a call comes late, and the last one did.
* `Office.FaultTorn`, `Office.TimerOutlivesRun` : a fault came between a look at the run state and its setting, and the
  timer clock counts on.
-/

namespace ChipEight

/-- The calls that start or stop the tone. -/
def Tally.toneCalls (t : Tally) : Nat := t.started + t.stopped

theorem Tally.tone_after {t : Tally} {call : Option Call} (h : call ≠ some .startTone) :
    (t.after call).toneCalls = t.toneCalls ∧ (t.after call).sounding = t.sounding := by
  rcases call with _ | _ | _ | _
  · exact ⟨rfl, rfl⟩
  · exact ⟨rfl, rfl⟩
  · exact absurd rfl h
  · exact ⟨rfl, rfl⟩

namespace Console

/-- The next move of the runner executes an FX18. -/
def SetsSound (c : Console) : Prop := ∃ w, c.nextWord? = some w ∧ w.family = 0xF ∧ w.kk = 0x18

instance (c : Console) : Decidable c.SetsSound :=
  decidable_of_iff (c.nextWord?.any fun w => w.family = 0xF ∧ w.kk = 0x18) (by simp [SetsSound, Option.any_eq_true])

/-- A run is alive: it was not stopped, and no fault has ended it. -/
def Alive (c : Console) : Prop := c.desk.attached = true ∧ c.board.mode ≠ .stopped ∧ c.board.fault = none

/-- The timer clock is between two ticks, or there is none. -/
def Settled (c : Console) : Prop := ∀ m, c.metronome = .live m → m = .looking ∧ c.board.mode ≠ .stopped

/-- The tone sounds just when there is a timer clock with something to count. -/
def InTune (c : Console) : Prop := c.tally.sounding = true ↔ ¬ c.Untimed ∧ c.board.timers.sound ≠ 0

/-- The timer clock is about to stop the tone. -/
def Silencing (c : Console) : Prop := c.metronome = .live .silencing ∨ c.metronome = .live .leaving

/-- Whether the last call about the tone has left it out of tune, when it was so (`late`) before something has led from
`c` to `c'`. -/
def lateAfter (c c' : Console) (late : Prop) : Prop :=
  if c'.tally.toneCalls = c.tally.toneCalls then late else ¬ c'.InTune

/-- The tone is out of tune just if the last call about it has left it so (`late`), unless the timer clock is about to
stop it. -/
def ToneKept (late : Prop) (c : Console) : Prop := c.Silencing ∨ (c.InTune ↔ ¬ late)

/-- A move of the runner that executes no FX18, or one of the timer clock that does not take it down. -/
inductive PlainMove (sc : Scenario) (c : Console) : Console → Prop
  | runner {r : Runner} (hlive : c.runner = .live r) (hplain : ¬ c.SetsSound) (due : Bool) :
    PlainMove sc c (c.runnerMove sc due r)
  | metronome {m : Metronome} (hlive : c.metronome = .live m) (due : Bool) :
    PlainMove sc c (c.metronomeMove { sc with silencingKills := false } due m)

section

variable {sc : Scenario} {c c' : Console} {r : Runner} {m : Metronome} {late : Prop}

theorem lateAfter_of_same (h : c'.tally.toneCalls = c.tally.toneCalls) : c.lateAfter c' late = late := if_pos h

theorem toneKept_of_call (h : c'.tally.toneCalls ≠ c.tally.toneCalls) : c'.ToneKept (c.lateAfter c' late) := by
  rw [lateAfter, if_neg h]
  exact .inr not_not.symm

/-- As long as nobody calls, nothing changes unless the timer clock goes or the sound timer comes to zero. -/
theorem ToneKept.congr (h : c.ToneKept late) (hsilencing : c.Silencing → c'.Silencing)
    (huntimed : c'.Untimed ↔ c.Untimed) (hcalls : c'.tally.toneCalls = c.tally.toneCalls)
    (hsounding : c'.tally.sounding = c.tally.sounding)
    (hsound : c'.board.timers.sound ≠ 0 ↔ c.board.timers.sound ≠ 0) : c'.ToneKept (c.lateAfter c' late) := by
  rw [lateAfter_of_same hcalls]
  refine h.imp hsilencing fun hiff => ?_
  unfold InTune at hiff ⊢
  rwa [hsounding, huntimed, hsound]

theorem ToneKept.of_eq (h : c.ToneKept late) (hmetronome : c'.metronome = c.metronome)
    (hcalls : c'.tally.toneCalls = c.tally.toneCalls) (hsounding : c'.tally.sounding = c.tally.sounding)
    (hsound : c'.board.timers.sound = c.board.timers.sound) : c'.ToneKept (c.lateAfter c' late) := by
  refine h.congr ?_ ?_ hcalls hsounding (by rw [hsound])
  · unfold Silencing
    rw [hmetronome]
    exact id
  · unfold Untimed
    rw [hmetronome]

/-- Where there is no timer clock, the sound timer does not matter. -/
theorem ToneKept.of_untimed (h : c.ToneKept late) (huntimed : c.Untimed) (huntimed' : c'.Untimed)
    (htally : c'.tally = c.tally) : c'.ToneKept (c.lateAfter c' late) := by
  have hnot : ¬ c.Silencing := fun hsilencing => hsilencing.elim (huntimed _) (huntimed _)
  have hoff {c : Console} (huntimed : c.Untimed) : c.InTune ↔ ¬ c.tally.sounding = true :=
    iff_false_right fun hand => hand.1 huntimed
  rw [lateAfter_of_same (by rw [htally])]
  refine .inr (Iff.trans ?_ (h.resolve_left hnot))
  rw [hoff huntimed, hoff huntimed', htally]

/-! ### The clocks -/

theorem PlainMove.moves (hsc : sc.Only Happening.Apart) (h : c.PlainMove sc c') : ∃ es, c.Moves sc c' es := by
  cases h with
  | runner hlive hplain due => exact ⟨_, moves_runner hsc hlive due⟩
  | metronome hlive due => exact ⟨_, moves_metronome hlive false due⟩

theorem timers_instr (hsc : sc.Only Happening.Apart) (r : Runner) (left : Nat) :
    (c.instr sc r left).board.timers = (c.upcoming sc r).2.toTimers := by
  obtain ⟨mode, rate, journal, hexecuted, -⟩ := executed_eq (c := c) (r := r) hsc left
  have htimers : (c.executed sc r left).board.timers = (c.upcoming sc r).2.toTimers := by
    rw [hexecuted]
    rfl
  rcases instr_cases sc c r left with ⟨journal, hinstr⟩ | hinstr
  all_goals
    rw [hinstr]
    exact htimers

/-- Without an FX18 the runner leaves the sound timer alone, unless it replaces the machine. -/
theorem sound_runnerMove (hsc : sc.Only Happening.Apart) (hlive : c.runner = .live r) (hplain : ¬ c.SetsSound)
    {due : Bool} (hquiet : (c.runnerMove sc due r).mail.replies = c.mail.replies) :
    (c.runnerMove sc due r).board.timers.sound = c.board.timers.sound := by
  rcases batch_or_between r with ⟨left, hstage⟩ | hmid
  · rw [runnerMove_of_batch hstage, timers_instr hsc]
    refine (c.session r.processor).same_step sc.toSurroundings (p := .sound) fun w hw hmay => hplain ⟨w, ?_, hmay⟩
    exact (nextWord?_eq_some_iff hlive hstage).mpr hw
  · rw [(betweenInstrs_runnerMove hmid due).timers hquiet]

/-- Without an FX18 the runner leaves the tone alone. -/
theorem tone_runnerMove (hsc : sc.Only Happening.Apart) (hlive : c.runner = .live r) (hplain : ¬ c.SetsSound)
    (due : Bool) :
    (c.runnerMove sc due r).tally.toneCalls = c.tally.toneCalls ∧
      (c.runnerMove sc due r).tally.sounding = c.tally.sounding := by
  rcases batch_or_between r with ⟨left, hstage⟩ | hmid
  · rw [runnerMove_of_batch hstage, tally_instr hsc]
    refine Tally.tone_after fun hcall => hplain ?_
    obtain ⟨w, hw, hf, hkk, -⟩ := (beginsTone_iff hlive hstage).mpr hcall
    exact ⟨w, hw, hf, hkk⟩
  · rw [(betweenInstrs_runnerMove hmid due).tally]
    exact ⟨rfl, rfl⟩

/-- The timer clock counts, and stops the tone when it has come to zero. -/
theorem toneKept_metronomeMove (h : c.ToneKept late) (hlive : c.metronome = .live m) (due : Bool) :
    (c.metronomeMove { sc with silencingKills := false } due m).ToneKept
      (c.lateAfter (c.metronomeMove { sc with silencingKills := false } due m) late) := by
  have hstays : c.ToneKept (c.lateAfter c late) := h.of_eq rfl rfl rfl rfl
  have htimed {c' : Console} {m' : Metronome} (hlive' : c'.metronome = .live m') : c'.Untimed ↔ c.Untimed :=
    iff_of_false (fun hnot => hnot m' hlive') fun hnot => hnot m hlive
  have hcalls (next : Thread Metronome Unit) :
      (c.silence { sc with silencingKills := false } next).tally.toneCalls ≠ c.tally.toneCalls :=
    Nat.succ_ne_self (c.tally.started + c.tally.stopped)
  have hcounts (hm : m = .looking ∨ m = .ticking) {p : Prop} (hsilencing : c.Silencing) : p := by
    unfold Silencing at hsilencing
    rw [hlive] at hsilencing
    rcases hm with rfl | rfl <;> simp at hsilencing
  cases m with
  | looking =>
    simp only [metronomeMove]
    split
    · exact .inl (.inr rfl)
    · exact hstays
    · split
      · exact h.congr (hcounts (.inl rfl)) (htimed rfl) rfl rfl .rfl
      · exact hstays
  | ticking =>
    by_cases hone : c.board.timers.sound = 1
    · left
      simp [Silencing, metronomeMove, Board.tick, Timers.tick, hone]
    · exact h.congr (hcounts (.inr rfl)) (htimed rfl) rfl rfl (Timers.countDown_ne_zero_iff hone)
  | silencing => exact toneKept_of_call (hcalls _)
  | leaving => exact toneKept_of_call (hcalls _)

/-- **The clocks keep the tone** as long as no FX18 is executed and the machine is not replaced. -/
theorem toneKept_plainMove (hsc : sc.Only Happening.Apart) (h : c.ToneKept late) (hmove : c.PlainMove sc c')
    (hquiet : c'.mail.replies = c.mail.replies) : c'.ToneKept (c.lateAfter c' late) := by
  cases hmove with
  | runner hlive hplain due =>
    obtain ⟨hcalls, hsounding⟩ := tone_runnerMove hsc hlive hplain due
    exact h.of_eq (metronome_runnerMove hsc due _) hcalls hsounding (sound_runnerMove hsc hlive hplain hquiet)
  | metronome hlive due => exact toneKept_metronomeMove h hlive due

end

end Console

/-! ### Turns -/

namespace Turn

variable {P Q : List Turn → Turn → Prop} {t : Turn} {turns : List Turn}

def IsMetronome : Turn → Prop
  | .metronome .. => True
  | _ => False

/-- Among these turns is one with `P`, and the last one with `P` has `Q`.  Both are told of a turn and of the turns
before it. -/
def Latest (P Q : List Turn → Turn → Prop) (turns : List Turn) : Prop :=
  ∃ before t, before ++ [t] <+: turns ∧ P before t ∧ Q before t ∧
    ∀ later t', before ++ [t] <+: later → later ++ [t'] <+: turns → ¬ P later t'

theorem not_latest_nil : ¬ Latest P Q [] := by
  rintro ⟨before, t, hinit, -⟩
  simp at hinit

theorem latest_snoc_of (h : P turns t) : Latest P Q (turns ++ [t]) ↔ Q turns t := by
  constructor
  · rintro ⟨before, t₁, hinit, -, hQ, hlast⟩
    rcases List.prefix_concat_iff.mp hinit with hnow | hearlier
    · obtain ⟨rfl, hturn⟩ := List.append_inj' hnow rfl
      cases hturn
      exact hQ
    · exact absurd h (hlast turns t hearlier (List.prefix_refl _))
  · intro hQ
    refine ⟨turns, t, List.prefix_refl _, h, hQ, fun later t' hlater hinit => ?_⟩
    have hlong := hlater.length_le
    have hshort := hinit.length_le
    simp only [List.length_append, List.length_singleton] at hlong hshort
    omega

theorem latest_snoc_of_not (h : ¬ P turns t) : Latest P Q (turns ++ [t]) ↔ Latest P Q turns := by
  constructor
  · rintro ⟨before, t₁, hinit, hP, hQ, hlast⟩
    rcases List.prefix_concat_iff.mp hinit with hnow | hearlier
    · obtain ⟨rfl, hturn⟩ := List.append_inj' hnow rfl
      cases hturn
      exact absurd hP h
    · exact ⟨before, t₁, hearlier, hP, hQ, fun later t' hlater hinit' =>
        hlast later t' hlater (hinit'.trans (List.prefix_append _ _))⟩
  · rintro ⟨before, t₁, hinit, hP, hQ, hlast⟩
    refine ⟨before, t₁, hinit.trans (List.prefix_append _ _), hP, hQ, fun later t' hlater hinit' => ?_⟩
    rcases List.prefix_concat_iff.mp hinit' with hnow | hearlier
    · obtain ⟨rfl, hturn⟩ := List.append_inj' hnow rfl
      cases hturn
      exact h
    · exact hlast later t' hlater hearlier

/-- **One turn more**: with `P` it is the last one, and without `P` the last one is what it was. -/
theorem latest_snoc : Latest P Q (turns ++ [t]) ↔ (P turns t → Q turns t) ∧ (¬ P turns t → Latest P Q turns) := by
  by_cases h : P turns t
  · rw [latest_snoc_of h]
    exact ⟨fun hQ => ⟨fun _ => hQ, fun hnot => absurd h hnot⟩, fun hand => hand.1 h⟩
  · rw [latest_snoc_of_not h]
    exact ⟨fun hlatest => ⟨fun hP => absurd hP h, fun _ => hlatest⟩, fun hand => hand.2 h⟩

end Turn

namespace Office

variable {sc : Scenario} {o : Office} {t : Turn} {turns : List Turn}

/-- The desk is about to do this. -/
def IsAt (o : Office) (a : Action) : Prop := ∃ q next, o.task = some (q, .act a next)

/-- The tone is started or stopped in this turn. -/
def CallsTone (sc : Scenario) (o : Office) (before : List Turn) (t : Turn) : Prop :=
  (o.run sc (before ++ [t])).console.tally.toneCalls ≠ (o.run sc before).console.tally.toneCalls

/-- When one of these last took a turn, it left the sound timer so. -/
def LastLeft (sc : Scenario) (o : Office) (who : Turn → Prop) (P : UInt8 → Prop) (turns : List Turn) : Prop :=
  Turn.Latest (fun _ t => who t) (fun before t => P (o.run sc (before ++ [t])).console.board.timers.sound) turns

/-- **A call about the tone comes late**: what whoever makes it has seen is no longer so. -/
inductive CallsLate (sc : Scenario) (o : Office) (before : List Turn) : Turn → Prop
  /-- The desk starts the tone, and since its last turn the sound timer has come to zero. -/
  | overtaken (hstarts : (o.run sc before).IsAt .startTone) (hcounted : LastLeft sc o (· = .desk) (· ≠ 0) before)
      (hzero : (o.run sc before).console.board.timers.sound = 0) : CallsLate sc o before .desk
  /-- The desk starts the tone, and a fault has ended the run and the timer clock has left. -/
  | abandoned (hstarts : (o.run sc before).IsAt .startTone)
      (hattached : (o.run sc before).console.desk.attached = true)
      (hfault : (o.run sc before).console.board.fault ≠ none) (huntimed : (o.run sc before).console.Untimed) :
      CallsLate sc o before .desk
  /-- The timer clock stops the tone, and since its last turn, which took the sound timer to zero, it was set. -/
  | renewed {due fatal : Bool} (hsilencing : (o.run sc before).console.metronome = .live .silencing)
      (hticked : LastLeft sc o Turn.IsMetronome (· = 0) before)
      (hset : (o.run sc before).console.board.timers.sound ≠ 0) : CallsLate sc o before (.metronome due fatal)

/-- The last call about the tone in these turns came late. -/
def LastToneCallLate (sc : Scenario) (o : Office) (turns : List Turn) : Prop :=
  Turn.Latest (CallsTone sc o) (CallsLate sc o) turns

/-- The runner records a fault in this turn. -/
def RecordsFault (o : Office) : Turn → Prop
  | .runner _ => o.console.failing? ≠ none
  | _ => False

/-- The last fault was recorded between the look at the run state and its setting, in a pause or a resume. -/
def FaultTorn (sc : Scenario) (o : Office) (turns : List Turn) : Prop :=
  Turn.Latest (fun before => (o.run sc before).RecordsFault) (fun before _ => (o.run sc before).Astride) turns

/-- A fault that came between has ended the run, and the timer clock counts on. -/
def TimerOutlivesRun (sc : Scenario) (o : Office) (turns : List Turn) : Prop :=
  FaultTorn sc o turns ∧ (o.run sc turns).console.board.fault ≠ none ∧ ¬ (o.run sc turns).console.Untimed ∧
    (o.run sc turns).console.board.timers.sound ≠ 0

/-- In this turn no FX18 is executed, and the timer clock is not taken down. -/
def PlainTurn (o : Office) : Turn → Prop
  | .runner _ => ¬ o.console.SetsSound
  | .metronome _ fatal => fatal = false
  | _ => True

/-- In none of these turns an FX18 is executed or the timer clock taken down. -/
def PlainTurns (sc : Scenario) (o : Office) (turns : List Turn) : Prop :=
  ∀ before t, before ++ [t] <+: turns → (o.run sc before).PlainTurn t

theorem PlainTurns.init (h : PlainTurns sc o (turns ++ [t])) : PlainTurns sc o turns :=
  fun before t' hinit => h before t' (hinit.trans (List.prefix_append _ _))

theorem PlainTurns.last (h : PlainTurns sc o (turns ++ [t])) : (o.run sc turns).PlainTurn t :=
  h turns t (List.prefix_refl _)

theorem plainTurns_cons : PlainTurns sc o (t :: turns) ↔ o.PlainTurn t ∧ PlainTurns sc (o.advance sc t) turns := by
  constructor
  · intro h
    refine ⟨h [] t ⟨turns, rfl⟩, fun before t' hinit => ?_⟩
    exact h (t :: before) t' (List.cons_prefix_cons.mpr ⟨rfl, hinit⟩)
  · rintro ⟨hturn, hlater⟩ before t' hinit
    cases before with
    | nil =>
      obtain ⟨rfl, -⟩ := List.cons_prefix_cons.mp hinit
      exact hturn
    | cons t₁ before =>
      obtain ⟨rfl, hlast⟩ := List.cons_prefix_cons.mp hinit
      exact hlater before t' hlast

instance decidablePlainTurn (o : Office) : (t : Turn) → Decidable (o.PlainTurn t)
  | .runner _ => inferInstanceAs (Decidable (¬ _))
  | .metronome _ fatal => inferInstanceAs (Decidable (fatal = false))
  | .desk | .call _ | .refuse _ | .file _ => .isTrue trivial

instance decidablePlainTurns (sc : Scenario) : (o : Office) → (turns : List Turn) → Decidable (PlainTurns sc o turns)
  | _, [] => .isTrue fun before t hinit => by simp at hinit
  | o, t :: turns =>
    have := decidablePlainTurns sc (o.advance sc t) turns
    decidable_of_iff _ plainTurns_cons.symm

end Office

end ChipEight
