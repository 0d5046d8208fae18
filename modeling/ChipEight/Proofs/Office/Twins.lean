import ChipEight.Proofs.Office.Birth
import ChipEight.Proofs.Replay

/-!
# Offices that cannot be told apart

Two consoles that differ in their journals and in the calls that lie behind them, and whose surroundings will do the
same from now on, stay like that whatever is done to both.

* `Scenario.Echoes` : from now on the one does what the other does.
* `Console.Twins` : the same but for journal and tally.
* `Twins.runnerMove`, `Twins.metronomeMove`, `Twins.act` : what a clock or the desk does.
* `Office.Twins.run` : any number of turns; the same is remembered of them.
-/

namespace ChipEight

/-- After the calls of `t'`, `sc'` answers and does what `sc` answers and does after those of `t`. -/
structure Scenario.Echoes (sc : Scenario) (t : Tally) (sc' : Scenario) (t' : Tally) : Prop
    extends Surroundings.Echoes sc.toSurroundings t sc'.toSurroundings t' where
  happenings_eq : ∀ n, sc'.happenings (t'.asked + n) = sc.happenings (t.asked + n)
  toneHappenings_eq : ∀ n, sc'.toneHappenings (t'.started + n) = sc.toneHappenings (t.started + n)

namespace Scenario.Echoes

variable {sc sc' : Scenario} {t t' : Tally}

theorem after (h : sc.Echoes t sc' t') (call : Option Call) : sc.Echoes (t.after call) sc' (t'.after call) := by
  refine { toEchoes := h.toEchoes.after call, happenings_eq := fun n => ?_, toneHappenings_eq := fun n => ?_ }
  · cases call with
    | none => exact h.happenings_eq n
    | some call =>
      cases call with
      | ask =>
        have hn := h.happenings_eq (1 + n)
        rwa [← Nat.add_assoc, ← Nat.add_assoc] at hn
      | startTone | draw => exact h.happenings_eq n
  · cases call with
    | none => exact h.toneHappenings_eq n
    | some call =>
      cases call with
      | startTone =>
        have hn := h.toneHappenings_eq (1 + n)
        rwa [← Nat.add_assoc, ← Nat.add_assoc] at hn
      | ask | draw => exact h.toneHappenings_eq n

theorem stopTone (h : sc.Echoes t sc' t') : sc.Echoes t.stopTone sc' t'.stopTone :=
  { toEchoes := ⟨h.key_eq, h.random_eq⟩, happenings_eq := h.happenings_eq, toneHappenings_eq := h.toneHappenings_eq }

theorem during_eq (h : sc.Echoes t sc' t') (call : Option Call) :
    sc'.during t' (t'.after call) = sc.during t (t.after call) := by
  unfold Scenario.during
  rcases call with _ | _ | _ | _
  · simp [Tally.after]
  · simpa [Tally.after, Tally.ask] using h.happenings_eq 0
  · simpa [Tally.after, Tally.startTone] using h.toneHappenings_eq 0
  · simp [Tally.after, Tally.draw]

end Scenario.Echoes

namespace Console

/-- The consoles differ in journal and tally only, and hear the same from now on. -/
def Twins (sc : Scenario) (c : Console) (sc' : Scenario) (c' : Console) : Prop :=
  ∃ tally journal, c' = { c with tally, journal } ∧ sc.Echoes c.tally sc' tally

namespace Twins

variable {sc sc' : Scenario} {c c' : Console} {r : Runner}

theorem happen (h : Twins sc c sc' c') (x : Happening) : Twins sc (c.happen x) sc' (c'.happen x) := by
  obtain ⟨t, j, rfl, hechoes⟩ := h
  cases x <;> exact ⟨t, j, rfl, hechoes⟩

theorem foldl_happen (h : Twins sc c sc' c') (xs : List Happening) :
    Twins sc (xs.foldl Console.happen c) sc' (xs.foldl Console.happen c') := by
  induction xs generalizing c c' with
  | nil => exact h
  | cons x xs ih => exact ih (h.happen x)

theorem journals (h : Twins sc c sc' c') (journal journal' : Journal) :
    Twins sc { c with journal } sc' { c' with journal := journal' } := by
  obtain ⟨t, j, rfl, hechoes⟩ := h
  exact ⟨t, journal', rfl, hechoes⟩

theorem upcoming (h : Twins sc c sc' c') (r : Runner) :
    (c'.upcoming sc' r).1 = (c.upcoming sc r).1 ∧
      (c'.upcoming sc' r).2.toMachine = (c.upcoming sc r).2.toMachine ∧
      ∃ call, (c.upcoming sc r).2.tally = c.tally.after call ∧ (c'.upcoming sc' r).2.tally = c'.tally.after call := by
  obtain ⟨t, j, rfl, hechoes⟩ := h
  have hstep := Session.step_congr (m := c.board.machine r.processor) hechoes.toEchoes
  exact ⟨hstep.1, hstep.2, (c.board.machine r.processor).call?, Session.tally_step _ _, Session.tally_step _ _⟩

theorem resume (h : Twins sc c sc' c') {s s' : Session} {call : Option Call} (hmachine : s'.toMachine = s.toMachine)
    (htally : s.tally = c.tally.after call) (htally' : s'.tally = c'.tally.after call) (r : Runner) :
    Twins sc (c.resume r s) sc' (c'.resume r s') := by
  obtain ⟨t, j, rfl, hechoes⟩ := h
  refine ⟨t.after call, j, ?_, ?_⟩
  · simp only [Console.resume, hmachine, htally']
  · simp only [Console.resume, htally]
    exact hechoes.after call

theorem during_eq (h : Twins sc c sc' c') (r : Runner) :
    sc'.during c'.tally (c'.upcoming sc' r).2.tally = sc.during c.tally (c.upcoming sc r).2.tally := by
  obtain ⟨-, -, call, htally, htally'⟩ := h.upcoming r
  obtain ⟨t, j, rfl, hechoes⟩ := h
  rw [htally, htally']
  exact hechoes.during_eq call

theorem executed (h : Twins sc c sc' c') (r : Runner) (left : Nat) :
    Twins sc (c.executed sc r left) sc' (c'.executed sc' r left) := by
  obtain ⟨hout, hmachine, call, htally, htally'⟩ := h.upcoming r
  have hresume := h.resume hmachine htally htally' { r with stage := afterInstr left (c.upcoming sc r).1 }
  obtain ⟨journal, hexecuted⟩ := exists_executed_eq sc c r left
  obtain ⟨journal', hexecuted'⟩ := exists_executed_eq sc' c' r left
  rw [hexecuted, hexecuted', h.during_eq r, hout]
  exact (hresume.journals journal journal').foldl_happen _

theorem loseRunner (h : Twins sc c sc' c') : Twins sc c.loseRunner sc' c'.loseRunner := by
  obtain ⟨t, j, rfl, hechoes⟩ := h
  exact ⟨t, j, rfl, hechoes⟩

theorem instr (h : Twins sc c sc' c') (r : Runner) (left : Nat) :
    Twins sc (c.instr sc r left) sc' (c'.instr sc' r left) := by
  have hexecuted := h.executed r left
  rw [instr_eq, instr_eq, (h.upcoming r).1, h.during_eq r]
  cases (c.upcoming sc r).1 with
  | fault f => exact hexecuted.journals _ _
  | breakdown => exact hexecuted.loseRunner
  | _ =>
    dsimp only
    split
    · exact hexecuted.loseRunner
    · exact hexecuted

theorem runnerMove (h : Twins sc c sc' c') (due : Bool) (r : Runner) :
    Twins sc (c.runnerMove sc due r) sc' (c'.runnerMove sc' due r) := by
  unfold Console.runnerMove
  cases r.stage with
  | serving =>
    obtain ⟨t, j, rfl, hechoes⟩ := h
    simp only [serve]
    split <;> exact ⟨t, _, rfl, hechoes⟩
  | looking =>
    obtain ⟨t, j, rfl, hechoes⟩ := h
    simp only [look]
    split <;> exact ⟨t, _, rfl, hechoes⟩
  | batch left =>
    cases left with
    | zero =>
      obtain ⟨t, j, rfl, hechoes⟩ := h
      exact ⟨t, j, rfl, hechoes⟩
    | succ left => exact h.instr r left
  | waiting =>
    obtain ⟨t, j, rfl, hechoes⟩ := h
    dsimp only
    split <;> exact ⟨t, j, rfl, hechoes⟩
  | sizing | failing | leaving =>
    obtain ⟨t, j, rfl, hechoes⟩ := h
    exact ⟨t, j, rfl, hechoes⟩

theorem metronomeMove (h : Twins sc c sc' c') (due fatal : Bool) (m : Metronome) :
    Twins sc (c.metronomeMove { sc with silencingKills := fatal } due m) sc'
      (c'.metronomeMove { sc' with silencingKills := fatal } due m) := by
  obtain ⟨t, j, rfl, hechoes⟩ := h
  unfold Console.metronomeMove
  cases m with
  | looking =>
    dsimp only
    split
    · exact ⟨t, j, rfl, hechoes⟩
    · exact ⟨t, j, rfl, hechoes⟩
    · split <;> exact ⟨t, j, rfl, hechoes⟩
  | ticking => exact ⟨t, j, rfl, hechoes⟩
  | silencing | leaving => exact ⟨t.stopTone, j, rfl, hechoes.stopTone⟩

theorem act (h : Twins sc c sc' c') (a : Action) :
    Option.Rel (fun d d' => d'.1 = d.1 ∧ Twins sc d.2 sc' d'.2) (c.act a) (c'.act a) := by
  obtain ⟨t, j, rfl, hechoes⟩ := h
  cases a with
  | startTone => exact .some ⟨rfl, t.startTone, j, rfl, hechoes.after (some .startTone)⟩
  | stopTone => exact .some ⟨rfl, t.stopTone, j, rfl, hechoes.stopTone⟩
  | post job =>
    simp only [Console.act, Console.post]
    split <;> exact .some ⟨rfl, t, j, rfl, hechoes⟩
  | collect ticket =>
    simp only [Console.act, Console.collect]
    split
    · exact .some ⟨rfl, t, j, rfl, hechoes⟩
    · exact .none
    · exact .some ⟨rfl, t, j, rfl, hechoes⟩
  | spawnRunner =>
    by_cases hrefused : (c.refusal == 1) = true
    all_goals
      simp only [Console.act, Console.spawnRunner, countThread, hrefused]
      exact .some ⟨rfl, t, _, rfl, hechoes⟩
  | spawnMetronome =>
    by_cases hrefused : (c.refusal == 1) = true
    all_goals
      simp only [Console.act, Console.spawnMetronome, countThread, hrefused]
      exact .some ⟨rfl, t, _, rfl, hechoes⟩
  | joinRunner =>
    simp only [Console.act, Console.joinRunner]
    split
    · exact .none
    all_goals exact .some ⟨rfl, t, j, rfl, hechoes⟩
  | joinMetronome =>
    simp only [Console.act, Console.joinMetronome]
    split
    · exact .none
    all_goals exact .some ⟨rfl, t, j, rfl, hechoes⟩
  | createFile | appendFile =>
    simp only [Console.act]
    split <;> exact .some ⟨rfl, t, j, rfl, hechoes⟩
  | _ => exact .some ⟨rfl, t, _, rfl, hechoes⟩

end Twins

end Console

/-! ### Turns -/

namespace Office

/-- The same has happened in both offices since the pasts `base` and `base'`, and the same is to be done. -/
structure Twins (sc : Scenario) (base : List Event) (o : Office) (sc' : Scenario) (base' : List Event) (o' : Office) :
    Prop where
  console : o.console.Twins sc sc' o'.console
  task : o'.task = o.task
  past : ∃ es, o.past = base ++ es ∧ o'.past = base' ++ es

namespace Twins

variable {sc sc' : Scenario} {base base' : List Event} {o o' : Office}

theorem past_append (h : o.Twins sc base sc' base' o') (new : List Event) :
    ∃ es, o.past ++ new = base ++ es ∧ o'.past ++ new = base' ++ es := by
  obtain ⟨es, hpast, hpast'⟩ := h.past
  exact ⟨es ++ new, by rw [hpast, List.append_assoc], by rw [hpast', List.append_assoc]⟩

theorem work (h : o.Twins sc base sc' base' o') : o.work.Twins sc base sc' base' o'.work := by
  unfold Office.work
  rw [h.task]
  rcases o.task with _ | ⟨q, p⟩
  · exact h
  cases p with
  | done answer => exact ⟨h.console, rfl, h.past_append _⟩
  | act a next =>
    have hrel := h.console.act a
    dsimp only
    revert hrel
    cases o.console.act a with
    | none =>
      cases o'.console.act a with
      | none => exact fun _ => h
      | some done' => nofun
    | some done =>
      cases o'.console.act a with
      | none => nofun
      | some done' =>
        rintro ⟨hanswer, htwins⟩
        obtain ⟨x, c⟩ := done
        obtain ⟨x', c'⟩ := done'
        obtain rfl : x' = x := hanswer
        exact ⟨htwins, rfl, h.past_append _⟩

theorem between (h : o.Twins sc base sc' base' o') {f : Console → Console}
    (hf : (f o.console).Twins sc sc' (f o'.console)) : (o.between f).Twins sc base sc' base' (o'.between f) := by
  unfold Office.between
  rw [h.task]
  cases o.task with
  | none => exact ⟨hf, rfl, h.past⟩
  | some task => exact h

/-- **One turn.** -/
theorem advance (h : o.Twins sc base sc' base' o') (t : Turn) :
    (o.advance sc t).Twins sc base sc' base' (o'.advance sc' t) := by
  cases t with
  | runner due =>
    have hmove (r : Runner) := h.console.runnerMove due r
    obtain ⟨tally, journal, hconsole, -⟩ := h.console
    have hrunner : o'.console.runner = o.console.runner := by rw [hconsole]
    simp only [Office.advance, hrunner]
    cases o.console.runner with
    | live r =>
      have hevents : r.events o'.console (o'.console.runnerMove sc' due r) =
          r.events o.console (o.console.runnerMove sc due r) := by
        obtain ⟨tally', journal', hmoved, -⟩ := hmove r
        rw [hmoved, hconsole]
        rfl
      refine ⟨hmove r, h.task, ?_⟩
      dsimp only
      rw [hevents]
      exact h.past_append _
    | none | ended | died => exact h
  | metronome due fatal =>
    have hmove (m : Metronome) := h.console.metronomeMove due fatal m
    obtain ⟨tally, journal, hconsole, -⟩ := h.console
    have hmetronome : o'.console.metronome = o.console.metronome := by rw [hconsole]
    simp only [Office.advance, hmetronome]
    cases o.console.metronome with
    | live m => exact ⟨hmove m, h.task, h.past_append _⟩
    | none | ended | died => exact h
  | desk => exact h.work
  | call q =>
    simp only [Office.advance, h.task]
    cases o.task with
    | none => exact ⟨h.console, rfl, h.past_append _⟩
    | some task => exact h
  | refuse n =>
    obtain ⟨tally, journal, hconsole, hechoes⟩ := h.console
    refine h.between (f := fun c => { c with refusal := n }) ?_
    rw [hconsole]
    exact ⟨tally, journal, rfl, hechoes⟩
  | file f =>
    obtain ⟨tally, journal, hconsole, hechoes⟩ := h.console
    refine h.between (f := fun c => { c with file := f }) ?_
    rw [hconsole]
    exact ⟨tally, journal, rfl, hechoes⟩

/-- **Any number of turns.** -/
theorem run (h : o.Twins sc base sc' base' o') (turns : List Turn) :
    (o.run sc turns).Twins sc base sc' base' (o'.run sc' turns) := by
  induction turns generalizing o o' with
  | nil => exact h
  | cons t turns ih => exact ih (h.advance t)

end Twins

end Office

end ChipEight
