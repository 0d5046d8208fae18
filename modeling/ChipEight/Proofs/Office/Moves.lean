import ChipEight.Console.Turn
import ChipEight.Proofs.Batching
import ChipEight.Proofs.Tone
import Mathlib.Logic.Relation

/-!
# What the clocks can do

A move of `run_interpreter` or `run_timer` is one of few things, whatever stage the clock is at (`Console.Moves`).  What
holds of every move holds of any number of moves that come between two actions of the desk (`Scene.Drifts`).

* `Console.moves_runner`, `Console.moves_metronome` : the two clocks keep to these rules.
* `Console.BetweenInstrs` : part by part, what a runner leaves alone that executes no instruction.
* `Scene.Drifts.induct` : what each move keeps is kept.
-/

namespace ChipEight

def Thread.here {α β : Type} : Thread α β → Bool
  | .none => false
  | _ => true

theorem Thread.here_eq_false {α β : Type} {t : Thread α β} : t.here = false ↔ t = .none := by
  cases t <;> simp [here]

/-- Nothing is sent to the runner. -/
def Happening.Apart : Happening → Prop
  | .post _ => False
  | _ => True

/-- The run state is left alone. -/
def Happening.KeepsMode : Happening → Prop
  | .mode _ => False
  | _ => True

/-- The call does not fail. -/
def Happening.Survives : Happening → Prop
  | .death => False
  | _ => True

namespace Console

/-- The processor, wherever it is: with the runner, left by it, or parked. -/
def processor (c : Console) : Processor :=
  match c.runner with
  | .none => c.desk.parked
  | .live r => r.processor
  | .ended p => p
  | .died => .powerOn

def machine (c : Console) : Machine := c.board.machine c.processor

/-- The console when the next instruction of the runner was executed and the runner goes on to `stage`. -/
def stepped (sc : Scenario) (c : Console) (r : Runner) (stage : Runner.Stage) : Console :=
  c.resume { r with stage } (c.upcoming sc r).2

/-- What a move of a clock can do, with what there is to remember of it. -/
inductive Moves (sc : Scenario) (c : Console) : Console → List Event → Prop
  /-- The runner goes on to another stage; it is about to leave only where the run state is `stopped`. -/
  | pass {r : Runner} (hlive : c.runner = .live r) (hstage : r.stage ≠ .leaving) (stage : Runner.Stage)
      (journal : Journal) (hstops : stage = .leaving → c.board.mode = .stopped) :
      Moves sc c { c with runner := .live { r with stage }, journal } []
  /-- The runner hands out a copy. -/
  | copy {r : Runner} {ticket : Nat} {jobs : List (Nat × Job)} (hlive : c.runner = .live r)
      (hstage : r.stage ≠ .leaving) (hjobs : c.mail.jobs = (ticket, .capture) :: jobs) :
      Moves sc c { c with mail := { c.mail with jobs }.reply ticket (.captured (c.board.machine r.processor)) }
        [.copied .runner (c.board.machine r.processor)]
  /-- The runner replaces the machine. -/
  | install {r : Runner} {ticket : Nat} {m : Machine} {jobs : List (Nat × Job)} (hlive : c.runner = .live r)
      (hstage : r.stage ≠ .leaving) (hjobs : c.mail.jobs = (ticket, .restore m) :: jobs) (journal : Journal) :
      Moves sc c
        { c with
          runner := .live { r with processor := m.toProcessor }
          board := c.board.restore m.toTimers m.screen
          mail := { c.mail with jobs }.reply ticket .restored
          journal }
        [.replaced .runner m]
  /-- The runner executes an instruction; during its calls run state and rate may change. -/
  | step {r : Runner} (hlive : c.runner = .live r) (hstage : r.stage ≠ .leaving) (stage : Runner.Stage) (mode : Mode)
      (rate : UInt32) (journal : Journal) (hmode : sc.Only Happening.KeepsMode → mode = c.board.mode)
      (hstays : stage ≠ .leaving) :
      Moves sc c { c.stepped sc r stage with board := { (c.stepped sc r stage).board with mode, rate }, journal }
        [.stepped]
  /-- The runner is taken down by an instruction or by one of its calls. -/
  | die {r : Runner} (hlive : c.runner = .live r) (hstage : r.stage ≠ .leaving) (mode : Mode) (rate : UInt32)
      (journal : Journal) (hmode : sc.Only Happening.KeepsMode → mode = c.board.mode)
      (hcause : (c.upcoming sc r).1 = .breakdown ∨ ¬ sc.Only Happening.Survives) :
      Moves sc c
        ({ c.stepped sc r r.stage with
          board := { (c.stepped sc r r.stage).board with mode, rate }, journal } : Console).loseRunner
        [.stepped, .died]
  /-- The runner records the fault that ends its run. -/
  | fail {r : Runner} {f : Fault} (hlive : c.runner = .live r) (hstage : r.stage = .failing f) :
      Moves sc c { c.runnerAt r .leaving with board := c.board.fail f } [.faulted f]
  /-- The runner leaves; the jobs that wait are thrown away. -/
  | leave {r : Runner} (hlive : c.runner = .live r) (hstage : r.stage = .leaving) :
      Moves sc c { c with runner := .ended r.processor, mail := c.mail.close } []
  /-- The metronome ticks the timers. -/
  | tick (hhere : c.metronome.here = true) (metronome : Thread Metronome Unit) (hstays : metronome.here = true) :
      Moves sc c { c with board := c.board.tick.1, metronome } [.ticked]
  /-- The metronome goes on, and may stop the tone. -/
  | hush (hhere : c.metronome.here = true) (metronome : Thread Metronome Unit) (hstays : metronome.here = true)
      (tally : Tally) (htally : tally = c.tally ∨ tally = c.tally.stopTone) :
      Moves sc c { c with metronome, tally } []

/-! ### The runner -/

theorem foldl_happen (c : Console) {xs : List Happening} (hapart : ∀ x ∈ xs, x.Apart) :
    ∃ mode rate, xs.foldl happen c = { c with board := { c.board with mode, rate } } ∧
      ((∀ x ∈ xs, x.KeepsMode) → mode = c.board.mode) := by
  induction xs generalizing c with
  | nil => exact ⟨c.board.mode, c.board.rate, rfl, fun _ => rfl⟩
  | cons x xs ih =>
    have htail : ∀ x ∈ xs, x.Apart := fun y hy => hapart y (List.mem_cons_of_mem x hy)
    have hkeeps (h : ∀ y ∈ x :: xs, y.KeepsMode) : ∀ y ∈ xs, y.KeepsMode :=
      fun y hy => h y (List.mem_cons_of_mem x hy)
    cases x with
    | mode s =>
      obtain ⟨mode, rate, heq, -⟩ := ih (c.happen (.mode s)) htail
      exact ⟨mode, rate, heq, fun h => (h (.mode s) List.mem_cons_self).elim⟩
    | rate hz =>
      obtain ⟨mode, rate, heq, hmode⟩ := ih (c.happen (.rate hz)) htail
      exact ⟨mode, rate, heq, fun h => hmode (hkeeps h)⟩
    | post j => exact (hapart (.post j) List.mem_cons_self).elim
    | death =>
      obtain ⟨mode, rate, heq, hmode⟩ := ih c htail
      exact ⟨mode, rate, heq, fun h => hmode (hkeeps h)⟩

section

variable {sc : Scenario} {c : Console} {r : Runner}

/-- An instruction of a batch, with all that happens during its calls, before the runner is taken down if it is. -/
theorem executed_eq (hsc : sc.Only Happening.Apart) (left : Nat) :
    ∃ mode rate journal, c.executed sc r left =
        { c.stepped sc r (afterInstr left (c.upcoming sc r).1) with
          board := { (c.stepped sc r (afterInstr left (c.upcoming sc r).1)).board with mode, rate }, journal } ∧
      (sc.Only Happening.KeepsMode → mode = c.board.mode) := by
  obtain ⟨journal, hexecuted⟩ := exists_executed_eq sc c r left
  rw [hexecuted]
  obtain ⟨mode, rate, heq, hmode⟩ :=
    foldl_happen { c.resume { r with stage := afterInstr left (c.upcoming sc r).1 } (c.upcoming sc r).2 with journal }
      (hsc.during c.tally (c.upcoming sc r).2.tally)
  exact ⟨mode, rate, journal, heq, fun hkeeps => hmode (hkeeps.during _ _)⟩

theorem moves_instr (hsc : sc.Only Happening.Apart) (hlive : c.runner = .live r) {left : Nat}
    (hstage : r.stage = .batch (left + 1)) :
    c.Moves sc (c.instr sc r left) (if (c.instr sc r left).runner = .died then [.stepped, .died] else [.stepped]) := by
  have hnot : r.stage ≠ .leaving := by rw [hstage]; nofun
  obtain ⟨mode, rate, journal, hexecuted, hmode⟩ := executed_eq (c := c) (r := r) hsc left
  have hstep (hstays : afterInstr left (c.upcoming sc r).1 ≠ .leaving) : c.Moves sc (c.executed sc r left) [.stepped] := by
    rw [hexecuted]
    exact .step hlive hnot _ mode rate journal hmode hstays
  have hdie (hcause : (c.upcoming sc r).1 = .breakdown ∨ ¬ sc.Only Happening.Survives) :
      c.Moves sc (c.executed sc r left).loseRunner [.stepped, .died] := by
    rw [hexecuted]
    exact .die hlive hnot mode rate journal hmode hcause
  have hlost : (c.executed sc r left).loseRunner.runner = .died := rfl
  have halive : (c.executed sc r left).runner ≠ .died := by
    rw [hexecuted]
    nofun
  rw [instr_eq]
  cases hout : (c.upcoming sc r).1 with
  | fault f =>
    dsimp only
    rw [show ((c.executed sc r left).note .runner (.faulted f)).runner = (c.executed sc r left).runner from rfl,
      if_neg halive, hexecuted]
    exact .step hlive hnot _ mode rate (journal.add .runner (.faulted f)) hmode (by rw [hout]; nofun)
  | breakdown =>
    dsimp only
    rw [if_pos hlost]
    exact hdie (.inl hout)
  | _ =>
    dsimp only
    by_cases hdeath : (sc.during c.tally (c.upcoming sc r).2.tally).contains .death = true
    · rw [if_pos hdeath]
      rw [if_pos hlost]
      refine hdie (.inr fun hsurvives => ?_)
      exact hsurvives.during _ _ .death (List.contains_iff_mem.mp hdeath)
    · rw [if_neg hdeath, if_neg halive]
      exact hstep (by rw [hout]; nofun)

/-- **The runner keeps to the rules.** -/
theorem moves_runner (hsc : sc.Only Happening.Apart) (hlive : c.runner = .live r) (due : Bool) :
    c.Moves sc (c.runnerMove sc due r) (r.events c (c.runnerMove sc due r)) := by
  have hpass (hnot : r.stage ≠ .leaving) (stage : Runner.Stage) (hstays : stage ≠ .leaving) :
      c.Moves sc (c.runnerAt r stage) [] := .pass hlive hnot stage c.journal fun hleaves => absurd hleaves hstays
  unfold runnerMove Runner.events
  cases hstage : r.stage with
  | serving =>
    have hnot : r.stage ≠ .leaving := by rw [hstage]; rintro ⟨⟩
    simp only [serve]
    rcases hjobs : c.mail.jobs with _ | ⟨⟨ticket, job⟩, jobs⟩
    · exact hpass hnot .looking (by rintro ⟨⟩)
    cases job with
    | capture => exact .copy hlive hnot hjobs
    | restore m => exact .install hlive hnot hjobs _
  | looking =>
    have hnot : r.stage ≠ .leaving := by rw [hstage]; rintro ⟨⟩
    simp only [look]
    split
    · next hmode => exact .pass hlive hnot .leaving _ fun _ => hmode
    · exact hpass hnot .serving (by rintro ⟨⟩)
    · exact hpass hnot .sizing (by rintro ⟨⟩)
  | sizing => exact hpass (by rw [hstage]; rintro ⟨⟩) _ (by rintro ⟨⟩)
  | batch left =>
    cases left with
    | zero => exact hpass (by rw [hstage]; rintro ⟨⟩) .waiting (by rintro ⟨⟩)
    | succ left => exact moves_instr hsc hlive hstage
  | waiting =>
    have hnot : r.stage ≠ .leaving := by rw [hstage]; rintro ⟨⟩
    dsimp only
    split
    · exact hpass hnot .serving (by rintro ⟨⟩)
    · have hstays : c.runnerAt r r.stage = c := by
        unfold runnerAt
        rw [← hlive]
      have h := hpass hnot r.stage hnot
      rwa [hstays] at h
  | failing f => exact .fail hlive hstage
  | leaving => exact .leave hlive hstage

/-- What a runner that executes no instruction leaves alone. -/
structure BetweenInstrs (c : Console) (r : Runner) (c' : Console) : Prop where
  metronome : c'.metronome = c.metronome
  tally : c'.tally = c.tally
  rate : c'.board.rate = c.board.rate
  /-- The timers are replaced only together with the machine, and then there is a reply. -/
  timers : c'.mail.replies = c.mail.replies → c'.board.timers = c.board.timers
  /-- Without a job the mailbox is left alone, or closed by a runner that goes. -/
  mail : (r.stage = .serving → c.mail.jobs = []) →
    c'.mail = c.mail ∧ (c'.runner = c.runner ∨ ∃ r', c'.runner = .live r') ∨
      c'.mail = c.mail.close ∧ ∀ r', c'.runner ≠ .live r'

/-- **Between two instructions** the runner keeps to this frame. -/
theorem betweenInstrs_runnerMove (hmid : ∀ left, r.stage ≠ .batch (left + 1)) (due : Bool) :
    c.BetweenInstrs r (c.runnerMove sc due r) := by
  have hgoes (stage : Runner.Stage) : c.BetweenInstrs r (c.runnerAt r stage) :=
    ⟨rfl, rfl, rfl, fun _ => rfl, fun _ => .inl ⟨rfl, .inr ⟨_, rfl⟩⟩⟩
  unfold runnerMove
  cases hstage : r.stage with
  | serving =>
    simp only [serve]
    split
    · exact hgoes .looking
    · next hjobs =>
      refine ⟨rfl, rfl, rfl, fun _ => rfl, fun hnone => ?_⟩
      rw [hnone hstage] at hjobs
      cases hjobs
    · next hjobs =>
      refine ⟨rfl, rfl, rfl, fun hsame => ?_, fun hnone => ?_⟩
      · simp [Mailbox.reply] at hsame
      · rw [hnone hstage] at hjobs
        cases hjobs
  | looking =>
    simp only [look]
    split
    · exact ⟨rfl, rfl, rfl, fun _ => rfl, fun _ => .inl ⟨rfl, .inr ⟨_, rfl⟩⟩⟩
    · exact hgoes .serving
    · exact hgoes .sizing
  | sizing => exact hgoes _
  | batch left =>
    cases left with
    | zero => exact hgoes .waiting
    | succ left => exact absurd hstage (hmid left)
  | waiting =>
    dsimp only
    split
    · exact hgoes .serving
    · exact ⟨rfl, rfl, rfl, fun _ => rfl, fun _ => .inl ⟨rfl, .inl rfl⟩⟩
  | failing f => exact ⟨rfl, rfl, rfl, fun _ => rfl, fun _ => .inl ⟨rfl, .inr ⟨_, rfl⟩⟩⟩
  | leaving => exact ⟨rfl, rfl, rfl, fun _ => rfl, fun _ => .inr ⟨rfl, by rintro _ ⟨⟩⟩⟩

theorem runnerMove_of_batch {left : Nat} (hstage : r.stage = .batch (left + 1)) (due : Bool) :
    c.runnerMove sc due r = c.instr sc r left := by
  simp only [runnerMove, hstage]

theorem batch_or_between (r : Runner) : (∃ left, r.stage = .batch (left + 1)) ∨ ∀ left, r.stage ≠ .batch (left + 1) := by
  by_cases h : ∃ left, r.stage = .batch (left + 1)
  · exact .inl h
  · exact .inr fun left hstage => h ⟨left, hstage⟩

/-! ### The metronome -/

theorem moves_metronome {m : Metronome} (hlive : c.metronome = .live m) (fatal due : Bool) :
    c.Moves sc (c.metronomeMove { sc with silencingKills := fatal } due m) m.events := by
  have hhere : c.metronome.here = true := by rw [hlive]; rfl
  have hgoes (m' : Metronome) : c.Moves sc (c.metronomeAt m') [] := .hush hhere _ rfl c.tally (.inl rfl)
  have hstays : c.Moves sc c [] := .hush hhere c.metronome hhere c.tally (.inl rfl)
  have hsilence (next : Thread Metronome Unit) (hnext : next.here = true) :
      c.Moves sc (c.silence { sc with silencingKills := fatal } next) [] := by
    refine .hush hhere _ ?_ c.tally.stopTone (.inr rfl)
    cases fatal
    · exact hnext
    · rfl
  unfold metronomeMove
  cases m with
  | looking =>
    dsimp only
    split
    · exact hgoes .leaving
    · exact hstays
    · split
      · exact hgoes .ticking
      · exact hstays
  | ticking => exact .tick hhere _ rfl
  | silencing => exact hsilence _ rfl
  | leaving => exact hsilence _ rfl

end

end Console

/-! ### Between two actions of the desk -/

namespace Scene

/-- The clocks have moved between the two scenes, any number of times. -/
def Drifts (sc : Scenario) : Scene → Scene → Prop :=
  Relation.ReflTransGen fun s s' => ∃ es, s.console.Moves sc s'.console es ∧ s'.past = s.past ++ es

variable {sc : Scenario} {s s' s'' : Scene}

theorem Drifts.refl (s : Scene) : s.Drifts sc s := Relation.ReflTransGen.refl

theorem Drifts.trans (h : s.Drifts sc s') (h' : s'.Drifts sc s'') : s.Drifts sc s'' := Relation.ReflTransGen.trans h h'

theorem Drifts.of_moves {c : Console} {es : List Event} (h : s.console.Moves sc c es) :
    s.Drifts sc ⟨c, s.past ++ es⟩ := .single ⟨es, h, rfl⟩

/-- What every move keeps is kept. -/
theorem Drifts.induct {P : Scene → Prop}
    (hP : ∀ {s c es}, P s → s.console.Moves sc c es → P ⟨c, s.past ++ es⟩) (h : s.Drifts sc s') (hs : P s) : P s' := by
  induction h with
  | refl => exact hs
  | @tail s₁ s₂ _ hmove ih =>
    obtain ⟨es, hmoves, hpast⟩ := hmove
    have hnext := hP ih hmoves
    rw [← hpast] at hnext
    exact hnext

end Scene

end ChipEight
