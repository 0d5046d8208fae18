import ChipEight.Console.Runner
import ChipEight.Proofs.Runs
import Mathlib.Logic.Function.Iterate

/-!
# Batches and waits

Left alone, the instruction clock computes what repeating steps computes (`Session.Reaches`), whatever the rates are and
however long it waits between two batches.

* `Console.alone` : the moves of the runner, with a clock that tells at each of them whether the time of the last batch
  is over.
* `Console.turn_eq_or_eq` : the clock only decides between a move and none, so every run makes the moves of the one
  that never waits.
* `Console.Follows`, `Console.follows_iterate` : that one stays on the way of the steps.
* `Console.Works.ends` : every round comes to an instruction, so a fault that lies on the way is reached.
* `Console.alone_computes` : all of this for any clock.
-/

namespace ChipEight

/-- In the middle of a run: nothing has ended it. -/
def Runner.Stage.Working : Runner.Stage → Prop
  | .failing _ | .leaving => False
  | _ => True

def Happening.KeepsMachine : Happening → Prop
  | .post (.restore _) => False
  | _ => True

/-- At most the rate changes, or a copy of the machine is asked for. -/
def Happening.KeepsRun : Happening → Prop
  | .rate _ | .post .capture => True
  | _ => False

theorem Happening.KeepsRun.keepsMachine {x : Happening} (h : x.KeepsRun) : x.KeepsMachine := by
  rcases x with _ | _ | (_ | _) | _
  case post.restore => exact h.elim
  all_goals trivial

/-- Whatever happens during a call is like this. -/
def Scenario.Only (sc : Scenario) (P : Happening → Prop) : Prop :=
  ∀ n, (∀ x ∈ sc.happenings n, P x) ∧ ∀ x ∈ sc.toneHappenings n, P x

theorem Scenario.Only.during {sc : Scenario} {P : Happening → Prop} (h : sc.Only P) (t t' : Tally) :
    ∀ x ∈ sc.during t t', P x := by
  intro x hx
  rcases List.mem_append.mp hx with hx | hx <;> split at hx
  · cases hx
  · exact (h t.asked).1 x hx
  · cases hx
  · exact (h t.started).2 x hx

theorem Scenario.Only.keepsMachine {sc : Scenario} (h : sc.Only Happening.KeepsRun) :
    sc.Only Happening.KeepsMachine :=
  fun n => ⟨fun x hx => ((h n).1 x hx).keepsMachine, fun x hx => ((h n).2 x hx).keepsMachine⟩

namespace Console

/-- The next move of the runner, or none when it is gone. -/
def turn (sc : Scenario) (due : Bool) (c : Console) : Console := (c.moveRunner? sc due).getD c

/-- The console when the runner alone has made `n` moves. -/
def alone (sc : Scenario) (due : Nat → Bool) (c : Console) : Nat → Console
  | 0 => c
  | n + 1 => (alone sc due c n).turn sc (due n)

/-- The time of every batch is over at some point. -/
def Elapses (due : Nat → Bool) : Prop := ∀ n, ∃ m, n ≤ m ∧ due m = true

section

variable {sc : Scenario} {c : Console} {r : Runner}

theorem turn_of_live (hlive : c.runner = .live r) (due : Bool) : c.turn sc due = c.runnerMove sc due r := by
  unfold turn moveRunner?
  rw [hlive]
  rfl

theorem turn_of_not_live (h : ∀ r, c.runner ≠ .live r) (due : Bool) : c.turn sc due = c := by
  unfold turn moveRunner?
  split
  · next r hlive => exact absurd hlive (h r)
  · rfl

/-! ### The clock -/

/-- Whatever the clock tells, the runner moves as it would on time, or not at all. -/
theorem turn_eq_or_eq (sc : Scenario) (c : Console) (due : Bool) :
    c.turn sc due = c.turn sc true ∨ c.turn sc due = c := by
  by_cases hlive : ∃ r, c.runner = .live r
  · obtain ⟨r, hlive⟩ := hlive
    rw [turn_of_live hlive, turn_of_live hlive, runnerMove, runnerMove]
    cases r.stage with
    | waiting =>
      -- the only stage that asks the clock
      simp only [Bool.true_or, if_true]
      split
      · exact .inl rfl
      · exact .inr rfl
    | batch left => cases left <;> exact .inl rfl
    | _ => exact .inl rfl
  · exact .inr (turn_of_not_live (fun r hr => hlive ⟨r, hr⟩) due)

variable {due : Nat → Bool}

theorem alone_eq_iterate (sc : Scenario) (due : Nat → Bool) (c : Console) (n : Nat) :
    ∃ k, c.alone sc due n = (turn sc true)^[k] c := by
  induction n with
  | zero => exact ⟨0, rfl⟩
  | succ n ih =>
    obtain ⟨k, hk⟩ := ih
    rcases turn_eq_or_eq sc (c.alone sc due n) (due n) with hmove | hwait
    · refine ⟨k + 1, ?_⟩
      rw [alone, hmove, hk, Function.iterate_succ_apply']
    · exact ⟨k, hwait.trans hk⟩

/-- After at most `d` waits the runner moves, if the clock tells it to then. -/
theorem moves_after_waits {n d : Nat} (h : due (n + d) = true) :
    ∃ m, c.alone sc due m = (c.alone sc due n).turn sc true := by
  induction d generalizing n with
  | zero =>
    refine ⟨n + 1, ?_⟩
    rw [Nat.add_zero] at h
    rw [alone, h]
  | succ d ih =>
    rcases turn_eq_or_eq sc (c.alone sc due n) (due n) with hmove | hwait
    · exact ⟨n + 1, hmove⟩
    · obtain ⟨m, hm⟩ := ih (n := n + 1) (by rwa [Nat.add_right_comm, Nat.add_assoc])
      refine ⟨m, hm.trans ?_⟩
      rw [alone, hwait]

/-- If the time of every batch is over at some point, the runner makes all the moves that it makes on time. -/
theorem iterate_eq_alone (sc : Scenario) (h : Elapses due) (c : Console) (k : Nat) :
    ∃ n, c.alone sc due n = (turn sc true)^[k] c := by
  induction k with
  | zero => exact ⟨0, rfl⟩
  | succ k ih =>
    obtain ⟨n, hn⟩ := ih
    obtain ⟨m, hle, hm⟩ := h n
    obtain ⟨d, rfl⟩ := Nat.exists_eq_add_of_le hle
    obtain ⟨m', hmove⟩ : ∃ m', c.alone sc due m' = (c.alone sc due n).turn sc true := moves_after_waits hm
    refine ⟨m', ?_⟩
    rw [hmove, hn, Function.iterate_succ_apply']

/-! ### What happens during a call -/

def OnlyCaptures (c : Console) : Prop := ∀ job ∈ c.mail.jobs, job.2 = .capture

structure Undisturbed (c c' : Console) : Prop where
  runner : c'.runner = c.runner
  session : c'.session = c.session
  fault : c'.board.fault = c.board.fault

theorem undisturbed_happen (c : Console) (xs : List Happening) : c.Undisturbed (xs.foldl happen c) := by
  refine List.foldlRecOn xs happen ⟨rfl, rfl, rfl⟩ fun c' h x _ => ?_
  cases x <;> exact ⟨h.runner, h.session, h.fault⟩

theorem onlyCaptures_happen (h : c.OnlyCaptures) {xs : List Happening} (hxs : ∀ x ∈ xs, x.KeepsMachine) :
    (xs.foldl happen c).OnlyCaptures := by
  refine List.foldlRecOn xs happen h fun c' h x hx => ?_
  rcases x with _ | _ | (_ | _) | _
  case post.capture =>
    intro job hjob
    rcases List.mem_append.mp hjob with hjob | hjob
    · exact h job hjob
    · rw [List.mem_singleton.mp hjob]
  case post.restore m => exact (hxs _ hx).elim
  all_goals exact h

theorem mode_happen (c : Console) {xs : List Happening} (hxs : ∀ x ∈ xs, x.KeepsRun) :
    (xs.foldl happen c).board.mode = c.board.mode := by
  refine List.foldlRecOn xs happen (motive := fun c' => c'.board.mode = c.board.mode) rfl fun c' h x hx => ?_
  rcases x with _ | _ | _ | _
  case mode => exact (hxs _ hx).elim
  all_goals exact h

theorem foldl_note (c : Console) (notes : List Note) :
    ∃ journal, notes.foldl (fun c n => c.note .runner n) c = { c with journal } := by
  induction notes generalizing c with
  | nil => exact ⟨c.journal, rfl⟩
  | cons n notes ih => exact ih (c.note .runner n)

/-! ### One move -/

/-- A runner in the middle of a run that no fault has ended, and of which nothing but copies is asked. -/
structure Works (c : Console) (r : Runner) : Prop where
  live : c.runner = .live r
  stage : r.stage.Working
  captures : c.OnlyCaptures
  fault : c.board.fault = none

/-- A bound on the moves to the next instruction, one for each job that waits. -/
def distance (c : Console) (r : Runner) : Nat :=
  match r.stage with
  | .batch 0 => c.mail.jobs.length + 5
  | .waiting => c.mail.jobs.length + 4
  | .serving => c.mail.jobs.length + 3
  | .looking => 2
  | .sizing => 1
  | _ => 0

/-- A move between two instructions, unless it is the last look at the run state, leaves machine and run state alone and
brings the next instruction nearer. -/
structure Passes (c : Console) (r : Runner) (c' : Console) (r' : Runner) : Prop where
  works : c'.Works r'
  session : c'.session r'.processor = c.session r.processor
  mode : c'.board.mode = c.board.mode
  nearer : c.board.mode = .running → c'.distance r' < c.distance r

theorem Works.passes_runnerAt (h : c.Works r) {stage : Runner.Stage} (hstage : stage.Working)
    (hnearer : c.board.mode = .running → c.distance { r with stage } < c.distance r) :
    c.Passes r (c.runnerAt r stage) { r with stage } where
  works := { live := rfl, stage := hstage, captures := h.captures, fault := h.fault }
  session := rfl
  mode := rfl
  nearer := hnearer

theorem Works.passes_serve (h : c.Works r) (hstage : r.stage = .serving) :
    ∃ r', c.Passes r (c.serve r) r' := by
  unfold serve
  split
  · next hjobs =>
    refine ⟨_, h.passes_runnerAt trivial fun _ => ?_⟩
    simp only [distance, hstage, hjobs]
    decide
  · next ticket jobs hjobs =>
    refine ⟨r, ⟨h.live, h.stage, fun job hjob => ?_, h.fault⟩, rfl, rfl, fun _ => ?_⟩
    · exact h.captures job (hjobs ▸ List.mem_cons_of_mem _ hjob)
    · simp only [distance, hstage, hjobs, List.length_cons, Mailbox.reply]
      omega
  · next ticket m jobs hjobs =>
    have hcopy := h.captures (ticket, .restore m) (hjobs ▸ List.mem_cons_self)
    cases hcopy

theorem Works.passes (sc : Scenario) (h : c.Works r) (hmid : ∀ left, r.stage ≠ .batch (left + 1)) :
    (r.stage = .looking ∧ c.board.mode = .stopped) ∨ ∃ r', c.Passes r (c.turn sc true) r' := by
  have hworking := h.stage
  rw [turn_of_live h.live, runnerMove]
  cases hstage : r.stage with
  | serving => exact .inr (h.passes_serve hstage)
  | looking =>
    simp only [look]
    cases hmode : c.board.mode with
    | stopped => exact .inl ⟨trivial, rfl⟩
    | paused =>
      refine .inr ⟨_, h.passes_runnerAt trivial fun hrun => ?_⟩
      rw [hmode] at hrun
      cases hrun
    | running =>
      refine .inr ⟨_, h.passes_runnerAt trivial fun _ => ?_⟩
      simp only [distance, hstage]
      decide
  | sizing =>
    refine .inr ⟨_, h.passes_runnerAt trivial fun _ => ?_⟩
    -- a batch is never empty
    have hpos : 1 ≤ (Settings.perBatch c.board.rate r.batchRate).toNat := Settings.one_le_perBatch ..
    obtain ⟨left, hleft⟩ := Nat.exists_eq_add_of_le hpos
    simp only [distance, hstage, hleft, Nat.add_comm 1]
    decide
  | batch left =>
    cases left with
    | zero =>
      refine .inr ⟨_, h.passes_runnerAt trivial fun _ => ?_⟩
      simp only [distance, hstage]
      omega
    | succ left => exact absurd hstage (hmid left)
  | waiting =>
    refine .inr ⟨_, h.passes_runnerAt trivial fun _ => ?_⟩
    simp only [distance, hstage]
    omega
  | failing f =>
    rw [hstage] at hworking
    exact hworking.elim
  | leaving =>
    rw [hstage] at hworking
    exact hworking.elim

/-- The step that the runner makes with the next instruction. -/
def upcoming (sc : Scenario) (c : Console) (r : Runner) : Outcome × Session :=
  (c.session r.processor).step sc.toSurroundings

/-- The console when the runner has made a step that left this session. -/
def resume (c : Console) (r : Runner) (s : Session) : Console :=
  { c with
    runner := .live { r with processor := s.toProcessor }
    board := { c.board with timers := s.toTimers, screen := s.screen }
    tally := s.tally }

/-- The console when an instruction of a batch is executed and all that happens during its calls has happened, but
before the runner is taken down if it is. -/
def executed (sc : Scenario) (c : Console) (r : Runner) (left : Nat) : Console :=
  (sc.during c.tally (c.upcoming sc r).2.tally).foldl happen <|
    (c.session r.processor).narrate.foldl (fun c n => c.note .runner n) <|
      c.resume { r with stage := afterInstr left (c.upcoming sc r).1 } (c.upcoming sc r).2

theorem instr_eq (sc : Scenario) (c : Console) (r : Runner) (left : Nat) :
    c.instr sc r left =
      match (c.upcoming sc r).1 with
      | .fault f => (c.executed sc r left).note .runner (.faulted f)
      | .breakdown => (c.executed sc r left).loseRunner
      | _ =>
        if (sc.during c.tally (c.upcoming sc r).2.tally).contains .death then (c.executed sc r left).loseRunner
        else c.executed sc r left := rfl

theorem exists_executed_eq (sc : Scenario) (c : Console) (r : Runner) (left : Nat) :
    ∃ journal, c.executed sc r left = (sc.during c.tally (c.upcoming sc r).2.tally).foldl happen
      { c.resume { r with stage := afterInstr left (c.upcoming sc r).1 } (c.upcoming sc r).2 with journal } := by
  obtain ⟨journal, hnotes⟩ :=
    foldl_note (c.resume { r with stage := afterInstr left (c.upcoming sc r).1 } (c.upcoming sc r).2)
      (c.session r.processor).narrate
  refine ⟨journal, ?_⟩
  rw [executed, hnotes]

/-- An instruction leaves what it has executed, perhaps with a note, or it takes the runner down. -/
theorem instr_cases (sc : Scenario) (c : Console) (r : Runner) (left : Nat) :
    (∃ journal, c.instr sc r left = { c.executed sc r left with journal }) ∨
      c.instr sc r left = (c.executed sc r left).loseRunner := by
  rw [instr_eq]
  cases (c.upcoming sc r).1 with
  | fault f => exact .inl ⟨_, rfl⟩
  | breakdown => exact .inr rfl
  | _ =>
    dsimp only
    split
    · exact .inr rfl
    · exact .inl ⟨(c.executed sc r left).journal, rfl⟩

/-- What an instruction of a batch leaves: the session of a step. -/
structure Executes (sc : Scenario) (c : Console) (r : Runner) (left : Nat) (c' : Console) : Prop where
  live : c'.runner = .live
    { r with processor := (c.upcoming sc r).2.toProcessor, stage := afterInstr left (c.upcoming sc r).1 }
  session : c'.session (c.upcoming sc r).2.toProcessor = (c.upcoming sc r).2
  captures : c'.OnlyCaptures
  fault : c'.board.fault = c.board.fault
  mode : sc.Only Happening.KeepsRun → c'.board.mode = c.board.mode

theorem executes_executed (hcaptures : c.OnlyCaptures) (hsc : sc.Only Happening.KeepsMachine) (left : Nat) :
    c.Executes sc r left (c.executed sc r left) := by
  obtain ⟨journal, hexecuted⟩ := exists_executed_eq sc c r left
  rw [hexecuted]
  have hsame := undisturbed_happen
    { c.resume { r with stage := afterInstr left (c.upcoming sc r).1 } (c.upcoming sc r).2 with journal }
    (sc.during c.tally (c.upcoming sc r).2.tally)
  refine ⟨hsame.runner, ?_, ?_, hsame.fault, fun hkeeps => ?_⟩
  · rw [hsame.session]
    rfl
  · refine onlyCaptures_happen ?_ (hsc.during _ _)
    exact hcaptures
  · rw [mode_happen _ (hkeeps.during _ _)]
    rfl

/-- An instruction of a batch is executed, and the run goes on from there, unless that takes the runner down. -/
theorem executes_or_died (hcaptures : c.OnlyCaptures) (hsc : sc.Only Happening.KeepsMachine) (left : Nat) :
    c.Executes sc r left (c.instr sc r left) ∧ (c.upcoming sc r).1 ≠ .breakdown ∨
      (c.instr sc r left).runner = .died ∧ (sc.Only Happening.KeepsRun → (c.upcoming sc r).1 = .breakdown) := by
  have hexecutes := executes_executed (r := r) hcaptures hsc left
  rw [instr_eq]
  cases hout : (c.upcoming sc r).1 with
  | fault f =>
    exact .inl ⟨⟨hexecutes.live, hexecutes.session, hexecutes.captures, hexecutes.fault, hexecutes.mode⟩, nofun⟩
  | breakdown => exact .inr ⟨rfl, fun _ => rfl⟩
  | _ =>
    dsimp only
    split
    · next hdeath =>
      refine .inr ⟨rfl, fun hkeeps => ?_⟩
      exact (hkeeps.during _ _ .death (List.contains_iff_mem.mp hdeath)).elim
    · exact .inl ⟨hexecutes, nofun⟩

theorem Executes.works {left : Nat} {c' : Console} (h : c.Executes sc r left c') (hfault : c.board.fault = none)
    (hstep : (c.upcoming sc r).1 = .next ∨ (c.upcoming sc r).1 = .awaitingKey) :
    c'.Works { r with processor := (c.upcoming sc r).2.toProcessor, stage := afterInstr left (c.upcoming sc r).1 } where
  live := h.live
  stage := by rcases hstep with hstep | hstep <;> rw [hstep] <;> trivial
  captures := h.captures
  fault := h.fault.trans hfault

theorem turn_instr {left : Nat} (hlive : c.runner = .live r) (hstage : r.stage = .batch (left + 1)) (due : Bool) :
    c.turn sc due = c.instr sc r left := by
  rw [turn_of_live hlive, runnerMove, hstage]

/-! ### Along the steps -/

/-- How the console stands to repeating steps from `s`: on the way of the steps, with the fault that ends it, or with the
run over.  When nobody changes the run state, only a fault does. -/
inductive Follows (sc : Scenario) (s : Session) (c : Console) : Prop
  | working {r : Runner} (works : c.Works r) (reaches : s.Reaches sc.toSurroundings none (c.session r.processor))
    (mode : sc.Only Happening.KeepsRun → c.board.mode = .running)
  | failing {r : Runner} {f : Fault} (live : c.runner = .live r) (stage : r.stage = .failing f)
    (reaches : s.Reaches sc.toSurroundings (some f) (c.session r.processor))
  | leaving {r : Runner} (live : c.runner = .live r) (stage : r.stage = .leaving) (mode : c.board.mode = .stopped)
    (reaches : s.Reaches sc.toSurroundings c.board.fault (c.session r.processor))
    (fault : sc.Only Happening.KeepsRun → c.board.fault ≠ none)
  | ended {p : Processor} (gone : c.runner = .ended p) (mode : c.board.mode = .stopped)
    (reaches : s.Reaches sc.toSurroundings c.board.fault (c.session p))
    (fault : sc.Only Happening.KeepsRun → c.board.fault ≠ none)
  | died (gone : c.runner = .died)

variable {s : Session}

theorem Executes.follows {left : Nat} {c' : Console} (h : c.Executes sc r left c') (hfault : c.board.fault = none)
    (hreaches : s.Reaches sc.toSurroundings none (c.session r.processor))
    (hmode : sc.Only Happening.KeepsRun → c.board.mode = .running) (hout : (c.upcoming sc r).1 ≠ .breakdown) :
    Follows sc s c' := by
  have hgoes (hstep : (c.upcoming sc r).1 = .next ∨ (c.upcoming sc r).1 = .awaitingKey) : Follows sc s c' := by
    refine .working (h.works hfault hstep) ?_ fun hkeeps => (h.mode hkeeps).trans (hmode hkeeps)
    rw [h.session]
    exact hreaches.step hstep
  cases houtcome : (c.upcoming sc r).1 with
  | next => exact hgoes (.inl houtcome)
  | awaitingKey => exact hgoes (.inr houtcome)
  | fault f =>
    refine .failing h.live ?_ ?_ (f := f)
    · rw [houtcome]
      rfl
    · rw [h.session]
      exact hreaches.step_fault houtcome
  | breakdown => exact absurd houtcome hout

theorem Follows.turn (h : Follows sc s c) (hsc : sc.Only Happening.KeepsMachine) : Follows sc s (c.turn sc true) := by
  cases h with
  | @working r works reaches mode =>
    by_cases hinstr : ∃ left, r.stage = .batch (left + 1)
    · obtain ⟨left, hstage⟩ := hinstr
      rw [turn_instr works.live hstage]
      rcases executes_or_died (r := r) works.captures hsc left with ⟨hexecutes, hout⟩ | ⟨hdied, -⟩
      · exact hexecutes.follows works.fault reaches mode hout
      · exact .died hdied
    · rcases works.passes sc (fun left hstage => hinstr ⟨left, hstage⟩) with ⟨hstage, hmode⟩ | ⟨r', hpass⟩
      · -- somebody has stopped the run, and the runner sees it now
        rw [turn_of_live works.live, runnerMove, hstage]
        simp only [look, hmode]
        refine .leaving rfl rfl hmode ?_ fun hkeeps => ?_
        · rw [← works.fault] at reaches
          exact reaches
        · rw [mode hkeeps] at hmode
          cases hmode
      · refine .working hpass.works ?_ fun hkeeps => hpass.mode.trans (mode hkeeps)
        rw [hpass.session]
        exact reaches
  | failing live stage reaches =>
    rw [turn_of_live live, runnerMove, stage]
    exact .leaving rfl rfl rfl reaches fun _ => nofun
  | leaving live stage mode reaches fault =>
    rw [turn_of_live live, runnerMove, stage]
    exact .ended rfl mode reaches fault
  | ended gone mode reaches fault =>
    rw [turn_of_not_live fun r => gone ▸ nofun]
    exact .ended gone mode reaches fault
  | died gone =>
    rw [turn_of_not_live fun r => gone ▸ nofun]
    exact .died gone

theorem Follows.of_ended (h : Follows sc s c) {p : Processor} (hended : c.runner = .ended p) :
    c.board.mode = .stopped ∧ s.Reaches sc.toSurroundings c.board.fault (c.session p) ∧
      (sc.Only Happening.KeepsRun → c.board.fault ≠ none) := by
  cases h with
  | working works =>
    rw [works.live] at hended
    cases hended
  | failing live =>
    rw [live] at hended
    cases hended
  | leaving live =>
    rw [live] at hended
    cases hended
  | ended gone mode reaches fault =>
    rw [gone] at hended
    cases hended
    exact ⟨mode, reaches, fault⟩
  | died gone =>
    rw [gone] at hended
    cases hended

theorem follows_iterate (h : Follows sc s c) (hsc : sc.Only Happening.KeepsMachine) (n : Nat) :
    Follows sc s ((turn sc true)^[n] c) := by
  induction n with
  | zero => exact h
  | succ n ih =>
    rw [Function.iterate_succ_apply']
    exact ih.turn hsc

/-! ### To the end -/

def Ends (sc : Scenario) (c : Console) : Prop := ∃ n p, ((turn sc true)^[n] c).runner = .ended p

theorem ends_of_iterate {n : Nat} (h : Ends sc ((turn sc true)^[n] c)) : Ends sc c := by
  obtain ⟨m, p, hp⟩ := h
  rw [← Function.iterate_add_apply] at hp
  exact ⟨m + n, p, hp⟩

/-- A round comes to an instruction. -/
theorem Works.comes_to_instr (sc : Scenario) (h : c.Works r) (hmode : c.board.mode = .running) :
    ∃ n r' left, r'.stage = .batch (left + 1) ∧ ((turn sc true)^[n] c).Works r' ∧
      ((turn sc true)^[n] c).session r'.processor = c.session r.processor ∧
      ((turn sc true)^[n] c).board.mode = .running := by
  -- while the run state is `running`, every move brings the next instruction nearer
  induction hd : c.distance r using Nat.strongRecOn generalizing c r with
  | ind d ih =>
    by_cases hinstr : ∃ left, r.stage = .batch (left + 1)
    · obtain ⟨left, hstage⟩ := hinstr
      exact ⟨0, r, left, hstage, h, rfl, hmode⟩
    · rcases h.passes sc (fun left hstage => hinstr ⟨left, hstage⟩) with ⟨-, hstop⟩ | ⟨r', hpass⟩
      · rw [hmode] at hstop
        cases hstop
      · obtain ⟨n, r'', left, hstage, hworks, hsession, hrun⟩ :=
          ih _ (hd ▸ hpass.nearer hmode) hpass.works (hpass.mode.trans hmode) rfl
        exact ⟨n + 1, r'', left, hstage, hworks, hsession.trans hpass.session, hrun⟩

theorem Works.executes (h : c.Works r) {left : Nat} (hstage : r.stage = .batch (left + 1))
    (hsc : sc.Only Happening.KeepsRun) (hout : (c.upcoming sc r).1 ≠ .breakdown) :
    c.Executes sc r left (c.turn sc true) := by
  rw [turn_instr h.live hstage]
  rcases executes_or_died (r := r) h.captures hsc.keepsMachine left with ⟨hexecutes, -⟩ | ⟨-, hbreakdown⟩
  · exact hexecutes
  · exact absurd (hbreakdown hsc) hout

theorem Works.round (h : c.Works r) (hmode : c.board.mode = .running) (hsc : sc.Only Happening.KeepsRun)
    (hout : (c.upcoming sc r).1 ≠ .breakdown) :
    ∃ (n : Nat) (c' : Console) (r' : Runner) (left : Nat), c'.upcoming sc r' = c.upcoming sc r ∧
      c'.Executes sc r' left ((turn sc true)^[n] c) ∧ c'.board.fault = none ∧ c'.board.mode = .running := by
  obtain ⟨n, r', left, hstage, hworks, hsession, hrun⟩ := h.comes_to_instr sc hmode
  have hup : ((turn sc true)^[n] c).upcoming sc r' = c.upcoming sc r :=
    congrArg (Session.step sc.toSurroundings) hsession
  have hexecutes := hworks.executes hstage hsc (by rwa [hup])
  rw [← Function.iterate_succ_apply' (turn sc true)] at hexecutes
  exact ⟨n + 1, _, r', left, hup, hexecutes, hworks.fault, hrun⟩

theorem ends_of_failing {f : Fault} (hlive : c.runner = .live r) (hstage : r.stage = .failing f) : Ends sc c := by
  refine ⟨2, r.processor, ?_⟩
  rw [Function.iterate_succ_apply, turn_of_live hlive, runnerMove, hstage]
  rfl

/-- A fault that repeated steps come to is reached. -/
theorem Works.ends (h : c.Works r) (hmode : c.board.mode = .running) (hsc : sc.Only Happening.KeepsRun) {k : Nat}
    {f : Fault} (hgoes : (c.session r.processor).GoesOn sc.toSurroundings k)
    (hfault : (c.session r.processor).ending sc.toSurroundings k = .fault f) : Ends sc c := by
  -- by induction on the steps before the fault, with a round for each
  induction k generalizing c r with
  | zero =>
    have hout : (c.upcoming sc r).1 = .fault f := hfault
    obtain ⟨n, c', r', left, hup, hexecutes, -, -⟩ := h.round hmode hsc (by rw [hout]; nofun)
    refine ends_of_iterate (n := n) (ends_of_failing (f := f) hexecutes.live ?_)
    rw [hup, hout]
    rfl
  | succ k ih =>
    have hout : (c.upcoming sc r).1 = .next ∨ (c.upcoming sc r).1 = .awaitingKey := hgoes 0 (Nat.succ_pos k)
    obtain ⟨n, c', r', left, hup, hexecutes, hnone, hrun⟩ :=
      h.round hmode hsc (by rcases hout with hout | hout <;> rw [hout] <;> nofun)
    have hsession := hexecutes.session
    rw [hup] at hsession
    refine ends_of_iterate (n := n) (ih (hexecutes.works hnone (hup ▸ hout)) ((hexecutes.mode hsc).trans hrun) ?_ ?_)
    · rw [hup, hsession]
      exact hgoes.tail
    · rw [hup, hsession, upcoming, Session.ending_step]
      exact hfault

/-- **Batches and waits change nothing.**  Let the runner be left alone at the top of a round, with a running board, no
fault and no job.  Rates and clock are arbitrary.
* If at most rates change and copies are asked for during its calls, if the time of every batch is over at some point,
  and if repeating steps comes to a fault, the run ends with the session that the fault has left, with that fault on the
  board, and stopped.
* Whenever the run ends, it is stopped; repeating steps comes to the session it has left, with the fault that is on the
  board, or before any fault when there is none on it.
* Whatever one clock leads to, every other clock leads to, on which the time of every batch is over at some point. -/
theorem alone_computes (sc : Scenario) (due : Nat → Bool) (hlive : c.runner = .live r) (hstage : r.stage = .serving)
    (hmode : c.board.mode = .running) (hfault : c.board.fault = none) (hjobs : c.mail.jobs = [])
    (hsc : sc.Only Happening.KeepsMachine) :
    (sc.Only Happening.KeepsRun → Elapses due → ∀ f t,
      (c.session r.processor).Reaches sc.toSurroundings (some f) t →
        ∃ n p, (c.alone sc due n).runner = .ended p ∧ (c.alone sc due n).session p = t ∧
          (c.alone sc due n).board.mode = .stopped ∧ (c.alone sc due n).board.fault = some f) ∧
    (∀ n p, (c.alone sc due n).runner = .ended p → (c.alone sc due n).board.mode = .stopped ∧
      (c.session r.processor).Reaches sc.toSurroundings (c.alone sc due n).board.fault ((c.alone sc due n).session p)) ∧
    ∀ due', Elapses due' → ∀ n, ∃ n', c.alone sc due' n' = c.alone sc due n := by
  have hworks : c.Works r := by
    refine ⟨hlive, hstage ▸ trivial, fun job hjob => ?_, hfault⟩
    rw [hjobs] at hjob
    cases hjob
  have hstart : Follows sc (c.session r.processor) c := .working hworks .start fun _ => hmode
  refine ⟨fun hkeeps helapses f t hreaches => ?_, fun n p hended => ?_, fun due' helapses n => ?_⟩
  · obtain ⟨k, p, hended⟩ : Ends sc c := by
      cases hreaches with
      | faulted hgoes hf => exact hworks.ends hmode hkeeps hgoes hf
    obtain ⟨hstopped, hreaches', hfault'⟩ := (follows_iterate hstart hsc k).of_ended hended
    obtain ⟨n, hn⟩ := iterate_eq_alone sc helapses c k
    rw [← hn] at hended hstopped hreaches' hfault'
    obtain ⟨f', hf'⟩ := Option.ne_none_iff_exists'.mp (hfault' hkeeps)
    rw [hf'] at hreaches'
    obtain ⟨rfl, rfl⟩ := hreaches.fault_unique hreaches'
    exact ⟨n, p, hended, rfl, hstopped, hf'⟩
  · obtain ⟨k, hk⟩ := alone_eq_iterate sc due c n
    rw [hk] at hended ⊢
    obtain ⟨hstopped, hreaches, -⟩ := (follows_iterate hstart hsc k).of_ended hended
    exact ⟨hstopped, hreaches⟩
  · obtain ⟨k, hk⟩ := alone_eq_iterate sc due c n
    rw [hk]
    exact iterate_eq_alone sc helapses c k

end

/-- A program that awaits a key, draws a random byte, and returns from where nobody called. -/
def stray : Processor :=
  { Processor.powerOn with
    memory := Bytes.put (.replicate _ 0) Memory.programStart [0xF0, 0x0A, 0xC1, 0xFF, 0x00, 0xEE] }

/-- A runner with that program, at no instructions a second in no batches a second. -/
def astray : Console where
  board := { mode := .running, rate := 0 }
  runner := .live { processor := stray, batchRate := 0 }

/-- Only the second question is answered; during each of them the rate changes and a copy is asked for. -/
def meddling : Scenario where
  key n := if n = 1 then some 5 else none
  random n := .ofNat (7 * n + 3)
  happenings n := [.rate (.ofNat (1000 * n)), .post .capture]

theorem only_meddling : meddling.Only Happening.KeepsRun := by
  refine fun n => ⟨fun x hx => ?_, nofun⟩
  rcases List.mem_cons.mp hx with rfl | hx
  · trivial
  · rw [List.mem_singleton.mp hx]
    trivial

/-- On a clock that is late two times out of three. -/
theorem alone_computes_astray :
    ∃ n p, (astray.alone meddling (fun n => n % 3 == 0) n).runner = .ended p ∧
      (astray.alone meddling (fun n => n % 3 == 0) n).session p =
        (astray.session stray).after meddling.toSurroundings 4 ∧
      (astray.alone meddling (fun n => n % 3 == 0) n).board.mode = .stopped ∧
      (astray.alone meddling (fun n => n % 3 == 0) n).board.fault = some (.stackUnderflow 0x0204) := by
  have helapses : Elapses fun n => n % 3 == 0 := fun n => ⟨3 * n, by omega, by simp⟩
  have hgoes : (astray.session stray).GoesOn meddling.toSurroundings 3 := by
    show ∀ k < 3, _
    decide +kernel
  have hfault : (astray.session stray).ending meddling.toSurroundings 3 = .fault (.stackUnderflow 0x0204) := by
    decide +kernel
  have hreaches := Session.Reaches.faulted hgoes hfault
  have hcomputes := alone_computes meddling (fun n => n % 3 == 0) (c := astray) rfl rfl rfl rfl rfl
    only_meddling.keepsMachine
  exact hcomputes.1 only_meddling helapses _ _ hreaches

end Console

end ChipEight
