import ChipEight.Proofs.Office.Answers
import ChipEight.Proofs.Office.Progress

/-!
# Whether a stop leaves silence

`stop` sets the run state to `stopped`.  The timer clock (`run_timer`) leaves as soon as it sees that, and stops the
tone once more.  The instruction clock (`run_interpreter`) sees it only when its batch is over, and a tone that it
starts after the timer clock has left is stopped by nobody.

* `Console.nextWord?` : the word that the runner is about to execute; it may begin the tone (`Console.BeginsTone`).
* `Console.Untimed` : no timer clock is alive.
* `Action.Mute` : the desk touches neither the tone nor the timer clock.
* `Office.BegunLate` : the runner has started the tone when no timer clock was alive.
* `Office.sounding_run_iff` : without the desk, that is the only way to a tone that outlasts the timer clock.
* `Office.silent_stopped_iff` : a stop leaves silence unless the tone was begun late.
* `Office.late_tone` : a run in which it was.
-/

namespace ChipEight

namespace Console

/-- No timer clock is alive, so nobody is left who would stop a tone. -/
def Untimed (c : Console) : Prop := ∀ m, c.metronome ≠ .live m

/-- The word that the next move of the runner executes, if it executes one. -/
def nextWord? (c : Console) : Option Word :=
  match c.runner with
  | .live { processor, stage := .batch (_ + 1), .. } => (processor.memory.word processor.pc).toOption
  | _ => none

/-- The next move of the runner executes an FX18 that starts the tone. -/
def BeginsTone (c : Console) : Prop :=
  ∃ w, c.nextWord? = some w ∧ w.family = 0xF ∧ w.kk = 0x18 ∧ c.machine.reg w.x ≠ 0

section

variable {sc : Scenario} {c c' : Console} {r : Runner}

/-! ### The runner -/

theorem nextWord?_eq_some_iff (hlive : c.runner = .live r) {left : Nat} (hstage : r.stage = .batch (left + 1))
    {w : Word} : c.nextWord? = some w ↔ (c.board.machine r.processor).Fetches w := by
  obtain ⟨processor, batchRate, stage⟩ := r
  cases hstage
  rw [Machine.fetches_iff, nextWord?, hlive]
  change (processor.memory.word processor.pc).toOption = some w ↔ processor.memory.word processor.pc = .ok w
  cases processor.memory.word processor.pc with
  | error f => simp [Except.toOption]
  | ok w' => simp [Except.toOption]

theorem nextWord?_eq_none (hlive : c.runner = .live r) (hmid : ∀ left, r.stage ≠ .batch (left + 1)) :
    c.nextWord? = none := by
  unfold nextWord?
  split
  · next processor batchRate left hlive' =>
    rw [hlive] at hlive'
    cases hlive'
    exact absurd rfl (hmid left)
  · rfl

theorem beginsTone_iff (hlive : c.runner = .live r) {left : Nat} (hstage : r.stage = .batch (left + 1)) :
    c.BeginsTone ↔ (c.board.machine r.processor).call? = some .startTone := by
  have hmachine : c.machine = c.board.machine r.processor := by
    unfold machine processor
    rw [hlive]
  rw [Machine.call?_eq_some_iff, BeginsTone, hmachine]
  simp only [nextWord?_eq_some_iff hlive hstage, Word.call?_eq_startTone_iff]

theorem not_beginsTone (hlive : c.runner = .live r) (hmid : ∀ left, r.stage ≠ .batch (left + 1)) :
    ¬ c.BeginsTone := by
  rintro ⟨w, hw, -⟩
  rw [nextWord?_eq_none hlive hmid] at hw
  cases hw

theorem tally_instr (hsc : sc.Only Happening.Apart) (r : Runner) (left : Nat) :
    (c.instr sc r left).tally = c.tally.after (c.board.machine r.processor).call? := by
  obtain ⟨mode, rate, journal, hexecuted, -⟩ := executed_eq (c := c) (r := r) hsc left
  have htally : (c.executed sc r left).tally = c.tally.after (c.board.machine r.processor).call? := by
    rw [hexecuted]
    exact Session.tally_step sc.toSurroundings (c.session r.processor)
  rcases instr_cases sc c r left with ⟨journal, hinstr⟩ | hinstr
  all_goals
    rw [hinstr]
    exact htally

theorem sounding_runnerMove (hsc : sc.Only Happening.Apart) (hlive : c.runner = .live r) (due : Bool) :
    (c.runnerMove sc due r).tally.sounding = true ↔ c.tally.sounding = true ∨ c.BeginsTone := by
  rcases batch_or_between r with ⟨left, hstage⟩ | hmid
  · rw [runnerMove_of_batch hstage, tally_instr hsc, Tally.sounding_after, beginsTone_iff hlive hstage]
    split
    · next hcall => simp [hcall]
    · next hcall => simp [hcall]
  · rw [(betweenInstrs_runnerMove hmid due).tally]
    exact (or_iff_left (not_beginsTone hlive hmid)).symm

/-! ### The metronome -/

/-- The metronome does not go before it has stopped the tone. -/
theorem silent_of_untimed {m : Metronome} (hlive : c.metronome = .live m) {due : Bool}
    (h : (c.metronomeMove sc due m).Untimed) : (c.metronomeMove sc due m).tally.sounding = false := by
  have hgoes (m' : Metronome) : ¬ (c.metronomeAt m').Untimed := fun h => h m' rfl
  have hstays : ¬ c.Untimed := fun h => h m hlive
  unfold metronomeMove at h ⊢
  cases m with
  | looking =>
    dsimp only at h ⊢
    split at h
    · exact absurd h (hgoes _)
    · exact absurd h hstays
    · split at h
      · exact absurd h (hgoes _)
      · exact absurd h hstays
  | ticking => exact absurd rfl (h _)
  | silencing | leaving => rfl

end

end Console

/-! ### The desk -/

def Action.Mute : Action → Prop
  | .startTone | .stopTone | .spawnMetronome => False
  | _ => True

theorem Console.of_mute {c c' : Console} {a : Action} {x : a.Answer} (ha : a.Mute) (hact : c.act a = some (x, c')) :
    c'.tally = c.tally ∧ (c'.Untimed ↔ c.Untimed) := by
  have hprint := footprint_of_act hact
  constructor
  · rcases hprint.tally with hsame | rfl | rfl
    · exact hsame
    · exact ha.elim
    · exact ha.elim
  · unfold Untimed
    rcases hprint.metronome with hsame | ⟨hnone, hgone⟩ | ⟨rfl, -⟩
    · rw [hsame]
    · rw [hnone]
      exact iff_of_true nofun hgone
    · exact ha.elim

namespace Order

open Procedure (Within Secures)

theorem mute_closeRun (whole : Bool) :
    (closeRun whole).run.Within (fun _ _ => True) Action.Mute fun _ => True := by
  cases whole with
  | false => exact ⟨trivial, fun _ _ => trivial⟩
  | true =>
    refine ⟨trivial, ?_⟩
    rintro (_ | f) _
    · exact ⟨trivial, fun _ _ => trivial⟩
    · exact ⟨trivial, fun _ _ => ⟨trivial, fun _ _ => trivial⟩⟩

theorem mute_endRun : endRun.run.Within (fun _ _ => True) Action.Mute fun _ => True := by
  refine ⟨trivial, fun _ _ => ⟨trivial, ?_⟩⟩
  rintro (_ | _) _
  · trivial
  refine ⟨trivial, fun _ _ => ⟨trivial, ?_⟩⟩
  intro whole _
  refine ⟨trivial, ?_⟩
  rintro (_ | _) _
  · exact ⟨trivial, fun _ _ => mute_closeRun whole⟩
  · exact mute_closeRun whole

theorem mute_stop : Request.stop.order.run.Within (fun _ _ => True) Action.Mute fun _ => True := by
  have htell : stop.run.Within (fun _ _ => True) Action.Mute fun _ => True := by
    refine Within.andThen mute_endRun (fun _ _ => ⟨trivial, ?_⟩) fun _ _ => trivial
    rintro (_ | f) _ <;> trivial
  exact Within.andThen htell (fun _ _ => trivial) fun _ _ => trivial

/-- Whatever a stop answers, both clocks are joined. -/
theorem joined_stop {sc : Scenario} {s : Scene} {ds : List Event} (h : s.Rests ds) :
    Request.stop.order.run.Secures sc (Scene.Fits sc .stop) (fun _ s => ∃ b, s.Stands ds false false false b) s := by
  refine Secures.andThen (stop_secures h) (fun _ s h => Secures.done ⟨_, h⟩) fun e s h => Secures.done ?_
  cases e with
  | fault f => exact ⟨_, h⟩
  | _ => exact ⟨_, h.2.2⟩

end Order

namespace Office

variable {sc : Scenario} {o : Office} {t : Turn} {turns : List Turn}

def Mute (o : Office) : Prop :=
  ∀ q p, o.task = some (q, p) → p.Within (fun _ _ => True) Action.Mute fun _ => True

/-! ### One turn -/

theorem Mute.advance (h : o.Mute) (ht : ∀ q, t ≠ .call q) : (o.advance sc t).Mute := by
  obtain ⟨s, _ | ⟨q, p⟩⟩ := o
  · have hnone : (({ toScene := s } : Office).run sc [t]).task = none :=
      run_idle sc rfl fun q hmem => ht q (List.mem_singleton.mp hmem).symm
    intro q p htask
    cases hnone.symm.trans htask
  · have hp : p.Within (fun _ _ => True) Action.Mute fun _ => True := h q p rfl
    show ((busy s q p).advance sc t).Mute
    have hturn : (∃ s' p', (busy s q p).advance sc t = busy s' q p' ∧
          p'.Within (fun _ _ => True) Action.Mute fun _ => True) ∨
        ∃ answer, p = .done answer ∧ (busy s q p).advance sc t = { toScene := s.add (.answered q answer) } :=
      advance_busy q (P := fun _ p => p.Within (fun _ _ => True) Action.Mute fun _ => True) hp
        (by rintro a next x c rfl - -; exact hp.2 x trivial)
    obtain ⟨s', p', hadvance, hp'⟩ | ⟨answer, -, hadvance⟩ := hturn
    · rw [hadvance]
      rintro _ _ ⟨⟩
      exact hp'
    · rw [hadvance]
      nofun

theorem Mute.work (h : o.Mute) :
    o.work.console.tally = o.console.tally ∧ (o.work.console.Untimed ↔ o.console.Untimed) := by
  obtain ⟨s, _ | ⟨q, _ | ⟨a, next⟩⟩⟩ := o
  · exact ⟨rfl, .rfl⟩
  · exact ⟨rfl, .rfl⟩
  · have ha : a.Mute := (h q _ rfl).1
    simp only [Office.work]
    cases hact : s.console.act a with
    | none => exact ⟨rfl, .rfl⟩
    | some done => exact Console.of_mute ha hact

/-- **Without a timer clock** only the runner can start a tone, and nobody stops it. -/
theorem advance_untimed (hsc : sc.Only Happening.Apart) (hmute : o.Mute) (h : o.console.Untimed) :
    (o.advance sc t).console.Untimed ∧
      ((o.advance sc t).console.tally.sounding = true ↔
        o.console.tally.sounding = true ∨ (∃ due, t = .runner due) ∧ o.console.BeginsTone) := by
  have hstays (c : Console) (ht : ∀ due, t ≠ .runner due) (htally : c.tally = o.console.tally)
      (huntimed : c.Untimed ↔ o.console.Untimed) :
      c.Untimed ∧ (c.tally.sounding = true ↔
        o.console.tally.sounding = true ∨ (∃ due, t = .runner due) ∧ o.console.BeginsTone) := by
    refine ⟨huntimed.mpr h, ?_⟩
    rw [htally]
    exact (or_iff_left fun hturn => hturn.1.elim ht).symm
  cases t with
  | runner due =>
    simp only [advance]
    split
    · next r hlive =>
      refine ⟨?_, ?_⟩
      · intro m
        dsimp only
        rw [Console.metronome_runnerMove hsc]
        exact h m
      · rw [Console.sounding_runnerMove hsc hlive]
        simp
    · next hgone =>
      refine ⟨h, (or_iff_left ?_).symm⟩
      rintro ⟨-, w, hw, -⟩
      simp only [Console.nextWord?] at hw
      split at hw
      · next hlive => exact hgone _ hlive
      · cases hw
  | metronome due fatal =>
    simp only [advance]
    split
    · next m hlive => exact absurd hlive (h m)
    · exact hstays _ (by rintro _ ⟨⟩) rfl .rfl
  | desk => exact hstays _ (by rintro _ ⟨⟩) hmute.work.1 hmute.work.2
  | call q | refuse n | file f =>
    simp only [advance, between]
    split <;> exact hstays _ (by rintro _ ⟨⟩) rfl .rfl

/-- A timer clock that is there before a turn and not after it has stopped the tone. -/
theorem advance_timed (hsc : sc.Only Happening.Apart) (hmute : o.Mute) (h : ¬ o.console.Untimed)
    (h' : (o.advance sc t).console.Untimed) : (o.advance sc t).console.tally.sounding = false := by
  cases t with
  | runner due =>
    simp only [advance] at h' ⊢
    split at h'
    · refine absurd (fun m hlive => h' m ?_) h
      dsimp only
      rwa [Console.metronome_runnerMove hsc]
    · exact absurd h' h
  | metronome due fatal =>
    simp only [advance] at h' ⊢
    split at h'
    · next m hlive => exact Console.silent_of_untimed hlive h'
    · exact absurd h' h
  | desk => exact absurd (hmute.work.2.mp h') h
  | call q | refuse n | file f =>
    simp only [advance, between] at h'
    split at h' <;> exact absurd h' h

/-! ### Any number of turns -/

/-- In one of these turns the runner has started the tone when no timer clock was alive. -/
def BegunLate (sc : Scenario) (o : Office) (turns : List Turn) : Prop :=
  ∃ before due, before ++ [.runner due] <+: turns ∧ (o.run sc before).console.Untimed ∧
    (o.run sc before).console.BeginsTone

theorem begunLate_snoc :
    BegunLate sc o (turns ++ [t]) ↔
      BegunLate sc o turns ∨
        (∃ due, t = .runner due) ∧ (o.run sc turns).console.Untimed ∧ (o.run sc turns).console.BeginsTone := by
  constructor
  · rintro ⟨before, due, hprefix, hbegins⟩
    rcases List.prefix_concat_iff.mp hprefix with hlast | hprefix
    · obtain ⟨rfl, hturn⟩ := List.append_inj' hlast rfl
      cases hturn
      exact .inr ⟨⟨due, rfl⟩, hbegins⟩
    · exact .inl ⟨before, due, hprefix, hbegins⟩
  · rintro (⟨before, due, hprefix, hbegins⟩ | ⟨⟨due, rfl⟩, hbegins⟩)
    · exact ⟨before, due, hprefix.trans (List.prefix_append _ _), hbegins⟩
    · exact ⟨turns, due, List.prefix_refl _, hbegins⟩

theorem Mute.run (h : o.Mute) (hturns : ∀ q, .call q ∉ turns) : (o.run sc turns).Mute := by
  induction turns generalizing o with
  | nil => exact h
  | cons t turns ih =>
    have ht : ∀ q, t ≠ .call q := fun q hq => hturns q (hq ▸ List.mem_cons_self)
    exact ih (h.advance ht) fun q hmem => hturns q (List.mem_cons_of_mem _ hmem)

/-- **A tone that outlasts the timer clock** was begun late, or it sounds since before. -/
theorem sounding_run_iff (hsc : sc.Only Happening.Apart) (hmute : o.Mute) (hturns : ∀ q, .call q ∉ turns)
    (h : (o.run sc turns).console.Untimed) :
    (o.run sc turns).console.tally.sounding = true ↔
      o.console.Untimed ∧ o.console.tally.sounding = true ∨ BegunLate sc o turns := by
  -- until the timer clock goes nothing can be late, and what it finds it stops
  have hall : (¬ (o.run sc turns).console.Untimed → ¬ o.console.Untimed ∧ ¬ BegunLate sc o turns) ∧
      ((o.run sc turns).console.Untimed → ((o.run sc turns).console.tally.sounding = true ↔
        o.console.Untimed ∧ o.console.tally.sounding = true ∨ BegunLate sc o turns)) := by
    clear h
    induction turns using List.reverseRecOn with
    | nil =>
      have hnone : ¬ BegunLate sc o [] := by
        rintro ⟨before, due, hprefix, -⟩
        simp at hprefix
      refine ⟨fun h => ⟨h, hnone⟩, fun h => ?_⟩
      rw [or_iff_left hnone]
      exact (and_iff_right h).symm
    | append_singleton turns t ih =>
      have hbefore : ∀ q, .call q ∉ turns := fun q hmem => hturns q (List.mem_append_left _ hmem)
      obtain ⟨htimed, huntimed⟩ := ih hbefore
      have hmute' : (o.run sc turns).Mute := hmute.run hbefore
      have hrun : o.run sc (turns ++ [t]) = (o.run sc turns).advance sc t := run_append sc o turns [t]
      rw [hrun, begunLate_snoc]
      by_cases hnow : (o.run sc turns).console.Untimed
      · obtain ⟨hstays, hsounding⟩ := advance_untimed (t := t) hsc hmute' hnow
        refine ⟨fun hgone => absurd hstays hgone, fun _ => ?_⟩
        rw [hsounding, huntimed hnow, or_assoc]
        simp only [hnow, true_and]
      · obtain ⟨hstart, hlate⟩ := htimed hnow
        have hnone : ¬ (BegunLate sc o turns ∨ (∃ due, t = .runner due) ∧ (o.run sc turns).console.Untimed ∧
            (o.run sc turns).console.BeginsTone) := by
          rintro (hlate' | ⟨-, hnow', -⟩)
          · exact hlate hlate'
          · exact hnow hnow'
        refine ⟨fun _ => ⟨hstart, hnone⟩, fun hgone => ?_⟩
        rw [advance_timed hsc hmute' hnow hgone, or_iff_left hnone]
        exact iff_of_false nofun fun hold => hstart hold.1
  exact hall.2 h

/-! ### A stop -/

/-- **A stop leaves silence unless the tone is begun late.**  In an office with any history somebody comes to a desk that
is at no request and asks for a stop, and after any turns the desk is about to answer.  Then both clocks are gone; and
the last call about the tone has stopped it, or there was none, if and only if two things hold.  If no timer clock was
alive at the beginning, it was so then; and in none of these turns the runner has executed an instruction that starts the
tone when no timer clock was alive. -/
theorem silent_stopped_iff (ho : o.Reachable) (hidle : o.task = none) (hsc : sc.Only Happening.Apart)
    (hturns : ∀ q, .call q ∉ turns) {answer : Request.Answer}
    (h : ((o.advance sc (.call .stop)).run sc turns).answer? = some (.stop, answer)) :
    let asked := o.advance sc (.call .stop)
    let stopped := asked.run sc turns
    stopped.console.runner = .none ∧ stopped.console.metronome = .none ∧
      (stopped.console.tally.sounding = false ↔
        (o.console.Untimed → o.console.tally.sounding = false) ∧ ¬ BegunLate sc asked turns) := by
  intro asked stopped
  obtain ⟨s, hrun, hasks⟩ := answers_of_answer? hsc hidle hturns h
  have hgone : s.console.runner = .none ∧ s.console.metronome = .none := by
    obtain ⟨a, hrests⟩ := ho.rests hidle
    have hjoined : Request.stop.order.run.Secures sc (Scene.Fits sc .stop)
        (fun _ s => ∃ b, s.Stands (deals o.past) false false false b) (o.add (.called .stop)) :=
      Order.joined_stop ⟨a, hrests.add (Event.plain_called .stop)⟩
    rw [advance_call sc hidle] at hrun
    obtain ⟨s₁, ⟨b, hstands⟩, hdrift⟩ := secures_of_asks hsc hjoined ⟨[], rfl, nofun⟩ hrun hasks
    have hend := hstands.drifts hdrift
    exact ⟨Thread.here_eq_false.mp hend.runner, Thread.here_eq_false.mp hend.metronome⟩
  have hstopped : stopped.console = s.console := congrArg (fun o : Office => o.console) hrun
  have hmute : asked.Mute := by
    have hasked : asked = busy (o.add (.called .stop)) .stop Request.stop.order.run := advance_call sc hidle .stop
    rw [hasked]
    rintro _ _ ⟨⟩
    exact Order.mute_stop
  have hsame : asked.console = o.console := by
    rw [show asked = _ from advance_call sc hidle .stop]
    rfl
  have huntimed : stopped.console.Untimed := by
    intro m hlive
    rw [hstopped, hgone.2] at hlive
    cases hlive
  refine ⟨hstopped ▸ hgone.1, hstopped ▸ hgone.2, ?_⟩
  have hsounding := sounding_run_iff hsc hmute hturns huntimed
  rw [hsame] at hsounding
  rw [← Bool.not_eq_true, hsounding, not_or, not_and, Bool.not_eq_true]

/-- A program that sets its sound timer to 255 has made its first step. -/
def aboutToSound : Office :=
  (Office.new {}).run alone
    (.call (.reset [0x60, 0xFF, 0xF0, 0x18, 0x12, 0x04]) :: .replicate 20 .desk ++ .replicate 4 (.runner true))

/-- The desk sets the run state to `stopped`, the clocks take these turns, and the desk does the rest of a stop. -/
def stopping (clocks : List Turn) : List Turn := .desk :: clocks ++ .replicate 7 .desk

/-- The runner finishes its batch and leaves before the timer clock looks at the run state. -/
def inOrder : List Turn := stopping (.replicate 30 (.runner true) ++ .replicate 2 (.metronome true false))

theorem silent_stopped_iff_inOrder :
    aboutToSound.Reachable ∧ aboutToSound.task = none ∧ (∀ q, .call q ∉ inOrder) ∧
      ((aboutToSound.advance alone (.call .stop)).run alone inOrder).answer? = some (.stop, .ok none) ∧
      ((aboutToSound.advance alone (.call .stop)).run alone inOrder).console.tally.sounding = false ∧
      ¬ BegunLate alone (aboutToSound.advance alone (.call .stop)) inOrder := by
  have hreachable : aboutToSound.Reachable := .run (.new {}) rfl (only_alone _) _
  have hturns : ∀ q, .call q ∉ inOrder := by simp [inOrder, stopping]
  obtain ⟨hnone, hanswer, hsilent⟩ : aboutToSound.task.isNone = true ∧
      ((aboutToSound.advance alone (.call .stop)).run alone inOrder).answer? = some (.stop, .ok none) ∧
      ((aboutToSound.advance alone (.call .stop)).run alone inOrder).console.tally.sounding = false := by
    decide +kernel
  have hidle : aboutToSound.task = none := Option.isNone_iff_eq_none.mp hnone
  have hstops := silent_stopped_iff hreachable hidle (only_alone _) hturns hanswer
  exact ⟨hreachable, hidle, hturns, hanswer, hsilent, (hstops.2.2.mp hsilent).2⟩

/-- **A late tone.**  The timer clock leaves first, the runner executes the rest of its batch, and the stop succeeds: no
clock is left, and the tone sounds. -/
theorem late_tone :
    let turns := stopping (.replicate 2 (.metronome true false) ++ .replicate 30 (.runner true))
    let stopped := (aboutToSound.advance alone (.call .stop)).run alone turns
    stopped.answer? = some (.stop, .ok none) ∧ stopped.console.runner = .none ∧ stopped.console.metronome = .none ∧
      stopped.console.tally.sounding = true := by
  decide +kernel

end Office

end ChipEight
