import ChipEight.Proofs.CallStack
import ChipEight.Proofs.Office.Moves

/-!
# A run is cut between two batches

The runner reads the queue, the run state and the rate once a round, in this order and between two batches.  What the
calls of an instruction do to them is seen there and nowhere else.

* `Console.Run` : the moves of the runner, while others do what they like with the rest of the console.
* `Console.Batch`, `Console.Edge` : the instructions of a batch, and how it ends.
* `Console.KeepsEdges` : the rounds of a run, told stage by stage.
* `Console.turned`, `Console.stage_turn` : what a move leaves, and the stage that it leads to.
* `Console.Run.keepsEdges` : every run is like this.
-/

namespace ChipEight

namespace Job

def reply (m : Machine) : Job → Reply
  | .capture => .captured m
  | .restore _ => .restored

def leaves (m : Machine) : Job → Machine
  | .capture => m
  | .restore m' => m'

/-- No stack pointer beyond the stack is asked for. -/
def Sound : Job → Prop
  | .capture => True
  | .restore m => m.sp ≤ 16

theorem Sound.leaves {j : Job} {m : Machine} (hj : j.Sound) (hm : m.sp ≤ 16) : (j.leaves m).sp ≤ 16 := by
  cases j with
  | capture => exact hm
  | restore m' => exact hj

end Job

def Happening.Sound : Happening → Prop
  | .post j => j.Sound
  | _ => True

namespace Console

/-- What the runner is about to do, if there is one. -/
def stage? (c : Console) : Option Runner.Stage :=
  match c.runner with
  | .live r => some r.stage
  | _ => none

def nextStep (sc : Scenario) (c : Console) : Outcome × Session := (c.session c.processor).step sc.toSurroundings

/-- The console with all that happens during the calls of the next step. -/
def affected (sc : Scenario) (c : Console) : Console :=
  (sc.during c.tally (c.nextStep sc).2.tally).foldl happen c

/-- Where the runner goes on when it has seen the run state. -/
def afterLook : Mode → Runner.Stage
  | .stopped => .leaving
  | .paused => .serving
  | .running => .sizing

/-- The consoles that the runner finds at its moves.  Between two of them others do what they like with the rest of the
console, but send nothing. -/
structure Run (sc : Scenario) (due : Nat → Bool) (found : Nat → Console) : Prop where
  runner (n : Nat) : (found (n + 1)).runner = ((found n).turn sc (due n)).runner
  jobs (n : Nat) : (found (n + 1)).mail.jobs = ((found n).turn sc (due n)).mail.jobs

theorem run_alone (sc : Scenario) (due : Nat → Bool) (c : Console) : Run sc due (c.alone sc due) where
  runner _ := rfl
  jobs _ := rfl

/-- The runner takes this job off the queue and answers it. -/
structure Answers (job : Nat × Job) (c c' : Console) : Prop where
  jobs : c.mail.jobs = job :: c'.mail.jobs
  replies : c'.mail.replies = c.mail.replies ++ [(job.1, job.2.reply c.machine)]
  machine : c'.machine = job.2.leaves c.machine

/-- An instruction is executed.  What happens during its calls gets to the board and to the end of the queue. -/
structure Steps (sc : Scenario) (c c' : Console) : Prop where
  session : c'.session c'.processor = (c.nextStep sc).2
  mode : c'.board.mode = (c.affected sc).board.mode
  rate : c'.board.rate = (c.affected sc).board.rate
  mail : c'.mail = (c.affected sc).mail
  jobs : c.mail.jobs <+: c'.mail.jobs
  replies : c'.mail.replies = c.mail.replies

/-- How a batch ends with so many instructions to go, by the outcome of the last one and the console after it. -/
inductive Edge : Nat → Outcome → Console → Prop
  | full {c : Console} (h : c.stage? = some (.batch 0)) : Edge 0 .next c
  | awaitingKey {left : Nat} {c : Console} (h : c.stage? = some .waiting) : Edge left .awaitingKey c
  | fault {left : Nat} {f : Fault} {c : Console} (h : c.stage? = some (.failing f)) : Edge left (.fault f) c
  | breakdown {left : Nat} {c : Console} (h : c.runner = .died) : Edge left .breakdown c

/-- From move `n` on a batch of `k` instructions is executed; the `last`-th is its last one, the first being number
`0`. -/
structure Batch (sc : Scenario) (found : Nat → Console) (n k last : Nat) : Prop where
  lt : last < k
  steps : ∀ i ≤ last, (found (n + i)).stage? = some (.batch (k - i))
  goes : ∀ i < last, ((found (n + i)).nextStep sc).1 = .next
  edge : Edge (k - (last + 1)) ((found (n + last)).nextStep sc).1 (found (n + last + 1))

/-- **The rounds of a run** with this number of batches a second, told stage by stage. -/
structure KeepsEdges (sc : Scenario) (due : Nat → Bool) (batchRate : UInt32) (found : Nat → Console) : Prop where
  /-- A batch has the size that belongs to the rate at its beginning, and it is executed. -/
  batch (n : Nat) : (found n).stage? = some .sizing →
    1 ≤ (Settings.perBatch (found n).board.rate batchRate).toNat ∧
      ∃ last, Batch sc found (n + 1) (Settings.perBatch (found n).board.rate batchRate).toNat last
  /-- Every instruction belongs to a batch. -/
  within (n left : Nat) : (found n).stage? = some (.batch (left + 1)) →
    ∃ m last i, (found m).stage? = some .sizing ∧ i ≤ last ∧ n = m + 1 + i ∧
      Batch sc found (m + 1) (Settings.perBatch (found m).board.rate batchRate).toNat last
  steps (n left : Nat) : (found n).stage? = some (.batch (left + 1)) → ((found n).nextStep sc).1 ≠ .breakdown →
    (found n).Steps sc ((found n).turn sc (due n))
  /-- Apart from instructions and the record of a fault, no move touches run state and rate. -/
  holds (n : Nat) : (∀ left, (found n).stage? ≠ some (.batch (left + 1))) → (∀ f, (found n).stage? ≠ some (.failing f)) →
    ((found n).turn sc (due n)).board.mode = (found n).board.mode ∧
      ((found n).turn sc (due n)).board.rate = (found n).board.rate
  ends (n : Nat) : (found n).stage? = some (.batch 0) → (found (n + 1)).stage? = some .waiting
  waits (n : Nat) : (found n).stage? = some .waiting → (found (n + 1)).stage? ∈ [some .waiting, some .serving]
  /-- All jobs that wait are answered, in their order, and then the run state is looked at. -/
  serves (n : Nat) : (found n).stage? = some .serving →
    (∀ (i : Nat) (h : i < (found n).mail.jobs.length), (found (n + i)).stage? = some .serving ∧
      Answers (found n).mail.jobs[i] (found (n + i)) ((found (n + i)).turn sc (due (n + i)))) ∧
    (found (n + (found n).mail.jobs.length + 1)).stage? = some .looking
  /-- No job waits when the run state is looked at. -/
  looks (n : Nat) : (found n).stage? = some .looking →
    (found n).mail.jobs = [] ∧ (found (n + 1)).stage? = some (afterLook (found n).board.mode)
  /-- Until then all of them are answered that were sent before. -/
  answered (n m : Nat) : n ≤ m → (found m).stage? = some .looking → ∀ job ∈ (found n).mail.jobs,
    ∃ l, n ≤ l ∧ l < m ∧ Answers job (found l) ((found l).turn sc (due l))
  /-- A batch is begun only where the run state was seen to be `running`. -/
  begins (n : Nat) : (found (n + 1)).stage? = some .sizing →
    (found n).stage? = some .looking ∧ (found n).board.mode = .running
  /-- The jobs that wait when an instruction has faulted are never answered. -/
  fails (n : Nat) (f : Fault) : (found n).stage? = some (.failing f) →
    (found (n + 1)).stage? = some .leaving ∧ ((found n).turn sc (due n)).board = (found n).board.fail f ∧
      ∀ m ≥ n, ((found m).turn sc (due m)).mail.replies = (found m).mail.replies
  leaves (n : Nat) : (found n).stage? = some .leaving →
    (∃ p, (found (n + 1)).runner = .ended p) ∧ (found (n + 1)).mail.jobs = [] ∧
      ∀ m ≥ n, ((found m).turn sc (due m)).mail.replies = (found m).mail.replies

/-- Neither the processor nor a machine that waits to be taken over has a stack pointer beyond the stack. -/
structure Sound (c : Console) : Prop where
  alive : c.runner ≠ .died
  sp_le : ∀ r, c.runner = .live r → r.processor.sp ≤ 16
  jobs : ∀ job ∈ c.mail.jobs, job.2.Sound

variable {sc : Scenario} {c c' : Console} {r : Runner} {due : Bool}

theorem stage?_of_live (hlive : c.runner = .live r) : c.stage? = some r.stage := by
  rw [stage?, hlive]

theorem stage?_eq_some {stage : Runner.Stage} : c.stage? = some stage ↔ ∃ r, c.runner = .live r ∧ r.stage = stage := by
  unfold stage?
  split
  · next r hlive => simp [hlive]
  · next hgone => simpa using fun r hlive _ => hgone r hlive

theorem stage?_eq_none : c.stage? = none ↔ ∀ r, c.runner ≠ .live r := by
  rw [Option.eq_none_iff_forall_ne_some]
  refine ⟨fun h r hlive => h r.stage (stage?_of_live hlive), fun h stage hstage => ?_⟩
  obtain ⟨r, hlive, -⟩ := stage?_eq_some.mp hstage
  exact h r hlive

theorem processor_of_live (hlive : c.runner = .live r) : c.processor = r.processor := by
  rw [processor, hlive]

theorem nextStep_of_live (sc : Scenario) (hlive : c.runner = .live r) : c.nextStep sc = c.upcoming sc r := by
  rw [nextStep, processor_of_live hlive, upcoming]

/-! ### The queue -/

/-- The runner answers a job and has the machine that it asks for. -/
theorem serve_cons (hlive : c.runner = .live r) {ticket : Nat} {j : Job} {jobs : List (Nat × Job)}
    (hjobs : c.mail.jobs = (ticket, j) :: jobs) :
    ∃ journal, c.serve r = { c with
      runner := .live { r with processor := (j.leaves c.machine).toProcessor }
      board := c.board.restore (j.leaves c.machine).toTimers (j.leaves c.machine).screen
      mail := { c.mail with jobs }.reply ticket (j.reply c.machine)
      journal } := by
  have hmachine : c.machine = c.board.machine r.processor := by rw [machine, processor_of_live hlive]
  rw [hmachine, serve, hjobs]
  cases j with
  | capture =>
    refine ⟨c.journal, ?_⟩
    have hsame : Thread.live { r with processor := r.processor } = c.runner := hlive.symm
    simp only [Job.leaves, Job.reply, Board.machine, hsame]
    rfl
  | restore m => exact ⟨_, rfl⟩

theorem turn_serving (hlive : c.runner = .live r) (hstage : r.stage = .serving) : c.turn sc due = c.serve r := by
  rw [turn_of_live hlive, runnerMove, hstage]

theorem answers_turn (sc : Scenario) (due : Bool) (hstage : c.stage? = some .serving) {job : Nat × Job}
    {jobs : List (Nat × Job)} (hjobs : c.mail.jobs = job :: jobs) :
    c.Answers job (c.turn sc due) ∧ (c.turn sc due).stage? = some .serving ∧ (c.turn sc due).mail.jobs = jobs := by
  obtain ⟨r, hlive, hserving⟩ := stage?_eq_some.mp hstage
  obtain ⟨journal, hserve⟩ := serve_cons hlive hjobs
  rw [turn_serving hlive hserving, hserve]
  exact ⟨⟨hjobs, rfl, rfl⟩, congrArg some hserving, rfl⟩

/-! ### Instructions -/

structure Agrees (c c' : Console) : Prop where
  mode : c'.board.mode = c.board.mode
  rate : c'.board.rate = c.board.rate
  mail : c'.mail = c.mail

theorem Agrees.happen (h : c.Agrees c') (xs : List Happening) : (xs.foldl happen c).Agrees (xs.foldl happen c') := by
  induction xs generalizing c c' with
  | nil => exact h
  | cons x xs ih =>
    refine ih ?_
    cases x with
    | mode s => exact ⟨rfl, h.rate, h.mail⟩
    | rate hz => exact ⟨h.mode, rfl, h.mail⟩
    | post j => exact ⟨h.mode, h.rate, congrArg (·.post j) h.mail⟩
    | death => exact h

theorem mail_happen (c : Console) (xs : List Happening) :
    c.mail.jobs <+: (xs.foldl happen c).mail.jobs ∧ (xs.foldl happen c).mail.replies = c.mail.replies := by
  refine List.foldlRecOn xs happen (motive := fun c' => c.mail.jobs <+: c'.mail.jobs ∧ c'.mail.replies = c.mail.replies)
    ⟨List.prefix_rfl, rfl⟩ fun c' h x _ => ?_
  cases x with
  | post j => exact ⟨h.1.trans (List.prefix_append _ _), h.2⟩
  | mode s | rate hz | death => exact h

theorem sound_happen {xs : List Happening} (hjobs : ∀ job ∈ c.mail.jobs, job.2.Sound) (hxs : ∀ x ∈ xs, x.Sound) :
    ∀ job ∈ (xs.foldl happen c).mail.jobs, job.2.Sound := by
  refine List.foldlRecOn xs happen (motive := fun c' => ∀ job ∈ c'.mail.jobs, job.2.Sound) hjobs fun c' h x hx => ?_
  cases x with
  | post j =>
    intro job hjob
    rcases List.mem_append.mp hjob with hjob | hjob
    · exact h job hjob
    · rw [List.mem_singleton.mp hjob]
      exact hxs _ hx
  | mode s | rate hz | death => exact h

/-- An instruction of a batch, before the runner is taken down if it is. -/
theorem executed_agrees (sc : Scenario) (hlive : c.runner = .live r) (left : Nat) :
    (c.executed sc r left).runner = .live
        { r with processor := (c.nextStep sc).2.toProcessor, stage := afterInstr left (c.nextStep sc).1 } ∧
      (c.executed sc r left).session (c.nextStep sc).2.toProcessor = (c.nextStep sc).2 ∧
      (c.affected sc).Agrees (c.executed sc r left) := by
  have hstep := nextStep_of_live sc hlive
  obtain ⟨journal, hexecuted⟩ := exists_executed_eq sc c r left
  rw [hexecuted, affected, hstep]
  have hagrees : c.Agrees
      { c.resume { r with stage := afterInstr left (c.upcoming sc r).1 } (c.upcoming sc r).2 with journal } :=
    ⟨rfl, rfl, rfl⟩
  have hsame := undisturbed_happen
    { c.resume { r with stage := afterInstr left (c.upcoming sc r).1 } (c.upcoming sc r).2 with journal }
    (sc.during c.tally (c.upcoming sc r).2.tally)
  refine ⟨hsame.runner, ?_, hagrees.happen _⟩
  rw [hsame.session]
  rfl

/-- When no call fails, only the instruction itself can take the runner down. -/
theorem instr_of_survives (hsc : sc.Only Happening.Survives) (hlive : c.runner = .live r) (left : Nat) :
    (c.nextStep sc).1 = .breakdown ∧ c.instr sc r left = (c.executed sc r left).loseRunner ∨
      (c.nextStep sc).1 ≠ .breakdown ∧ ∃ journal, c.instr sc r left = { c.executed sc r left with journal } := by
  have hdeath : (sc.during c.tally (c.upcoming sc r).2.tally).contains .death = false := by
    rw [Bool.eq_false_iff]
    exact fun hdeath => hsc.during _ _ .death (List.contains_iff_mem.mp hdeath)
  rw [nextStep_of_live sc hlive, instr_eq]
  cases (c.upcoming sc r).1 with
  | breakdown => exact .inl ⟨rfl, rfl⟩
  | fault f => exact .inr ⟨nofun, _, rfl⟩
  | next | awaitingKey =>
    dsimp only
    rw [if_neg (by rw [hdeath]; nofun)]
    exact .inr ⟨nofun, (c.executed sc r left).journal, rfl⟩

theorem steps_turn (hsc : sc.Only Happening.Survives) {left : Nat} (hstage : c.stage? = some (.batch (left + 1)))
    (hout : (c.nextStep sc).1 ≠ .breakdown) : c.Steps sc (c.turn sc due) := by
  obtain ⟨r, hlive, hbatch⟩ := stage?_eq_some.mp hstage
  rw [turn_instr hlive hbatch]
  obtain ⟨hrunner, hsession, hagrees⟩ := executed_agrees sc hlive left
  rcases instr_of_survives hsc hlive left with ⟨hbreakdown, -⟩ | ⟨-, journal, hinstr⟩
  · exact absurd hbreakdown hout
  rw [hinstr]
  have hprocessor := processor_of_live hrunner
  have hmail : (c.executed sc r left).mail = (c.affected sc).mail := hagrees.mail
  obtain ⟨hjobs, hreplies⟩ := mail_happen c (sc.during c.tally (c.nextStep sc).2.tally)
  refine ⟨?_, hagrees.mode, hagrees.rate, hmail, ?_, ?_⟩
  · show (c.executed sc r left).session (c.executed sc r left).processor = _
    rw [hprocessor]
    exact hsession
  · rw [hmail]
    exact hjobs
  · rw [hmail]
    exact hreplies

/-! ### Stages -/

/-- The stage that a move of a runner leads to, or none when the runner is gone after it. -/
def stageAfter? (sc : Scenario) (due : Bool) (c : Console) (r : Runner) : Option Runner.Stage :=
  match r.stage with
  | .serving => some (if c.mail.jobs = [] then .looking else .serving)
  | .looking => some (afterLook c.board.mode)
  | .sizing => some (.batch (Settings.perBatch c.board.rate r.batchRate).toNat)
  | .batch 0 => some .waiting
  | .batch (left + 1) =>
    if (c.nextStep sc).1 = .breakdown then none else some (afterInstr left (c.nextStep sc).1)
  | .waiting => some (if due || c.board.mode != .running then .serving else .waiting)
  | .failing _ => some .leaving
  | .leaving => none

/-- What a move of a runner can leave. -/
inductive Turned (sc : Scenario) (due : Bool) (c : Console) (r : Runner) : Console → Prop
  /-- The runner goes on to another stage. -/
  | pass {stage : Runner.Stage} (journal : Journal) (hafter : c.stageAfter? sc due r = some stage) :
      Turned sc due c r { c.runnerAt r stage with journal }
  | serve {ticket : Nat} {j : Job} {jobs : List (Nat × Job)} (hstage : r.stage = .serving)
      (hjobs : c.mail.jobs = (ticket, j) :: jobs) (journal : Journal) :
      Turned sc due c r { c with
        runner := .live { r with processor := (j.leaves c.machine).toProcessor }
        board := c.board.restore (j.leaves c.machine).toTimers (j.leaves c.machine).screen
        mail := { c.mail with jobs }.reply ticket (j.reply c.machine)
        journal }
  | step {left : Nat} (hstage : r.stage = .batch (left + 1)) (hout : (c.nextStep sc).1 ≠ .breakdown) (journal : Journal) :
      Turned sc due c r { c.executed sc r left with journal }
  | die {left : Nat} (hstage : r.stage = .batch (left + 1)) (hout : (c.nextStep sc).1 = .breakdown) :
      Turned sc due c r (c.executed sc r left).loseRunner
  | fail {f : Fault} (hstage : r.stage = .failing f) :
      Turned sc due c r { c.runnerAt r .leaving with board := c.board.fail f }
  | leave (hstage : r.stage = .leaving) :
      Turned sc due c r { c with runner := .ended r.processor, mail := c.mail.close }

/-- **What a move leaves**, when no call fails. -/
theorem turned (hsc : sc.Only Happening.Survives) (hlive : c.runner = .live r) (due : Bool) :
    c.Turned sc due r (c.turn sc due) := by
  have hpass (stage : Runner.Stage) (hafter : c.stageAfter? sc due r = some stage) :
      c.Turned sc due r (c.runnerAt r stage) := .pass c.journal hafter
  cases hstage : r.stage with
  | serving =>
    rw [turn_serving hlive hstage]
    rcases hjobs : c.mail.jobs with _ | ⟨⟨ticket, j⟩, jobs⟩
    · have hafter : c.stageAfter? sc due r = some .looking := by
        rw [stageAfter?, hstage]
        exact congrArg some (if_pos hjobs)
      rw [serve, hjobs]
      exact hpass .looking hafter
    · obtain ⟨journal, hserve⟩ := serve_cons hlive hjobs
      rw [hserve]
      exact .serve hstage hjobs journal
  | looking =>
    have hafter : c.stageAfter? sc due r = some (afterLook c.board.mode) := by rw [stageAfter?, hstage]
    rw [turn_of_live hlive, runnerMove, hstage]
    simp only [look]
    cases hmode : c.board.mode with
    | stopped =>
      rw [hmode] at hafter
      exact .pass _ hafter
    | paused =>
      rw [hmode] at hafter
      exact hpass .serving hafter
    | running =>
      rw [hmode] at hafter
      exact hpass .sizing hafter
  | batch left =>
    cases left with
    | zero =>
      rw [turn_of_live hlive, runnerMove, hstage]
      exact hpass .waiting (by rw [stageAfter?, hstage])
    | succ left =>
      rw [turn_instr hlive hstage]
      rcases instr_of_survives hsc hlive left with ⟨hbreakdown, hinstr⟩ | ⟨hgoes, journal, hinstr⟩
      · rw [hinstr]
        exact .die hstage hbreakdown
      · rw [hinstr]
        exact .step hstage hgoes journal
  | waiting =>
    rw [turn_of_live hlive]
    simp only [runnerMove, hstage]
    by_cases hover : (due || c.board.mode != .running) = true
    · rw [if_pos hover]
      refine hpass .serving ?_
      rw [stageAfter?, hstage]
      exact congrArg some (if_pos hover)
    · have hstays : c.runnerAt r .waiting = c := by
        rw [runnerAt, ← hstage, ← hlive]
      have hwaits := hpass .waiting (by
        rw [stageAfter?, hstage]
        exact congrArg some (if_neg hover))
      rw [if_neg hover]
      rwa [hstays] at hwaits
  | sizing =>
    rw [turn_of_live hlive, runnerMove, hstage]
    exact hpass _ (by rw [stageAfter?, hstage])
  | failing f =>
    rw [turn_of_live hlive, runnerMove, hstage]
    exact .fail hstage
  | leaving =>
    rw [turn_of_live hlive, runnerMove, hstage]
    exact .leave hstage

/-- The same runner is at that stage, or none lives. -/
theorem runner_turn (hsc : sc.Only Happening.Survives) (hlive : c.runner = .live r) (due : Bool) :
    (∃ p stage, c.stageAfter? sc due r = some stage ∧
      (c.turn sc due).runner = .live { r with processor := p, stage }) ∨
    c.stageAfter? sc due r = none ∧ ∀ r', (c.turn sc due).runner ≠ .live r' := by
  have hturned := turned hsc hlive due
  generalize c.turn sc due = c' at hturned ⊢
  cases hturned with
  | @pass stage journal hafter => exact .inl ⟨r.processor, stage, hafter, rfl⟩
  | @serve ticket j jobs hstage hjobs journal =>
    refine .inl ⟨(j.leaves c.machine).toProcessor, .serving, ?_, by rw [← hstage]⟩
    rw [stageAfter?, hstage]
    exact congrArg some (if_neg (hjobs ▸ List.cons_ne_nil _ _))
  | @step left hstage hout journal =>
    refine .inl ⟨_, _, ?_, (executed_agrees sc hlive left).1⟩
    rw [stageAfter?, hstage]
    exact if_neg hout
  | @die left hstage hout =>
    refine .inr ⟨?_, by rintro _ ⟨⟩⟩
    rw [stageAfter?, hstage]
    exact if_pos hout
  | fail hstage => exact .inl ⟨r.processor, .leaving, by rw [stageAfter?, hstage], rfl⟩
  | leave hstage => exact .inr ⟨by rw [stageAfter?, hstage], by rintro _ ⟨⟩⟩

/-- **The stage that a move leads to.** -/
theorem stage_turn (hsc : sc.Only Happening.Survives) (hlive : c.runner = .live r) :
    (c.turn sc due).stage? = c.stageAfter? sc due r := by
  rcases runner_turn hsc hlive due with ⟨p, stage, hafter, hrunner⟩ | ⟨hafter, hgone⟩
  · rw [hafter]
    exact stage?_of_live hrunner
  · rw [hafter]
    exact stage?_eq_none.mpr hgone

/-- Run state and rate are left alone between two instructions, unless a fault is recorded. -/
theorem holds_turn (hsc : sc.Only Happening.Survives) (hbatch : ∀ left, c.stage? ≠ some (.batch (left + 1)))
    (hfailing : ∀ f, c.stage? ≠ some (.failing f)) :
    (c.turn sc due).board.mode = c.board.mode ∧ (c.turn sc due).board.rate = c.board.rate := by
  by_cases hlives : ∃ r, c.runner = .live r
  · obtain ⟨r, hlive⟩ := hlives
    have hr := stage?_of_live hlive
    have hturned := turned hsc hlive due
    generalize c.turn sc due = c' at hturned ⊢
    cases hturned with
    | @step left hstage | @die left hstage => exact absurd (hstage ▸ hr) (hbatch left)
    | @fail f hstage => exact absurd (hstage ▸ hr) (hfailing f)
    | pass | serve | leave => exact ⟨rfl, rfl⟩
  · rw [turn_of_not_live (not_exists.mp hlives)]
    exact ⟨rfl, rfl⟩

theorem of_stageAfter?_looking (h : c.stageAfter? sc due r = some .looking) :
    r.stage = .serving ∧ c.mail.jobs = [] := by
  cases hmode : c.board.mode <;> cases hout : (c.nextStep sc).1 <;> grind [stageAfter?, afterLook, afterInstr]

theorem of_stageAfter?_sizing (h : c.stageAfter? sc due r = some .sizing) :
    r.stage = .looking ∧ c.board.mode = .running := by
  cases hmode : c.board.mode <;> cases hout : (c.nextStep sc).1 <;> grind [stageAfter?, afterLook, afterInstr]

theorem of_stageAfter?_batch {left : Nat} (h : c.stageAfter? sc due r = some (.batch left)) :
    r.stage = .sizing ∧ left = (Settings.perBatch c.board.rate r.batchRate).toNat ∨
      r.stage = .batch (left + 1) ∧ (c.nextStep sc).1 = .next := by
  cases hmode : c.board.mode <;> cases hout : (c.nextStep sc).1 <;> grind [stageAfter?, afterLook, afterInstr]

namespace Run

variable {due : Nat → Bool} {found : Nat → Console} {n : Nat}

theorem stage?_succ (h : Run sc due found) (n : Nat) :
    (found (n + 1)).stage? = ((found n).turn sc (due n)).stage? := by
  rw [stage?, stage?, h.runner n]

theorem stage?_step (h : Run sc due found) (hsc : sc.Only Happening.Survives) (hlive : (found n).runner = .live r) :
    (found (n + 1)).stage? = (found n).stageAfter? sc (due n) r := (h.stage?_succ n).trans (stage_turn hsc hlive)

/-- A runner that lives has come from somewhere. -/
theorem of_live (h : Run sc due found) (hsc : sc.Only Happening.Survives) {r' : Runner}
    (hlive : (found (n + 1)).runner = .live r') :
    ∃ r, (found n).runner = .live r ∧ r'.batchRate = r.batchRate ∧
      (found n).stageAfter? sc (due n) r = some r'.stage := by
  rw [h.runner n] at hlive
  by_cases hbefore : ∃ r, (found n).runner = .live r
  · obtain ⟨r, hr⟩ := hbefore
    rcases runner_turn hsc hr (due n) with ⟨p, stage, hafter, hrunner⟩ | ⟨-, hgone⟩
    · rw [hrunner] at hlive
      cases hlive
      exact ⟨r, hr, rfl, hafter⟩
    · exact absurd hlive (hgone r')
  · rw [turn_of_not_live (fun r hr => hbefore ⟨r, hr⟩)] at hlive
    exact absurd ⟨r', hlive⟩ hbefore

theorem of_stage? (h : Run sc due found) (hsc : sc.Only Happening.Survives) {stage : Runner.Stage}
    (hstage : (found (n + 1)).stage? = some stage) :
    ∃ r, (found n).runner = .live r ∧ (found n).stageAfter? sc (due n) r = some stage := by
  obtain ⟨r', hlive, rfl⟩ := stage?_eq_some.mp hstage
  obtain ⟨r, hr, -, hafter⟩ := h.of_live hsc hlive
  exact ⟨r, hr, hafter⟩

theorem batchRate (h : Run sc due found) (hsc : sc.Only Happening.Survives) (hlive : (found 0).runner = .live r)
    {r' : Runner} (hlive' : (found n).runner = .live r') : r'.batchRate = r.batchRate := by
  induction n generalizing r' with
  | zero =>
    rw [hlive] at hlive'
    cases hlive'
    rfl
  | succ n ih =>
    obtain ⟨r'', hlive'', hrate, -⟩ := h.of_live hsc hlive'
    exact hrate.trans (ih hlive'')

/-! ### Between two batches -/

/-- The queue is taken from its head until it is empty. -/
theorem serves (h : Run sc due found) (hsc : sc.Only Happening.Survives) {jobs : List (Nat × Job)}
    (hstage : (found n).stage? = some .serving) (hjobs : (found n).mail.jobs = jobs) :
    (∀ (i : Nat) (hi : i < jobs.length), (found (n + i)).stage? = some .serving ∧
      Answers jobs[i] (found (n + i)) ((found (n + i)).turn sc (due (n + i)))) ∧
    (found (n + jobs.length + 1)).stage? = some .looking := by
  induction jobs generalizing n with
  | nil =>
    obtain ⟨r, hlive, hserving⟩ := stage?_eq_some.mp hstage
    refine ⟨nofun, ?_⟩
    show (found (n + 1)).stage? = _
    rw [h.stage?_step hsc hlive, stageAfter?, hserving]
    simp only [hjobs, if_true]
  | cons job jobs ih =>
    obtain ⟨hanswers, hserving, hrest⟩ := answers_turn sc (due n) hstage hjobs
    obtain ⟨hall, hlooking⟩ := ih ((h.stage?_succ n).trans hserving) ((h.jobs n).trans hrest)
    refine ⟨fun i hi => ?_, ?_⟩
    · cases i with
      | zero => exact ⟨hstage, hanswers⟩
      | succ i =>
        have hnext := hall i (Nat.lt_of_succ_lt_succ hi)
        rwa [Nat.add_right_comm, Nat.add_assoc] at hnext
    · rwa [Nat.add_right_comm n] at hlooking

theorem looks (h : Run sc due found) (hsc : sc.Only Happening.Survives) (hstart : (found 0).stage? = some .serving)
    (hstage : (found n).stage? = some .looking) :
    (found n).mail.jobs = [] ∧ (found (n + 1)).stage? = some (afterLook (found n).board.mode) := by
  obtain ⟨r, hlive, hlooking⟩ := stage?_eq_some.mp hstage
  refine ⟨?_, ?_⟩
  · cases n with
    | zero =>
      rw [hstage] at hstart
      cases hstart
    | succ n =>
      obtain ⟨r, hlive, hafter⟩ := h.of_stage? hsc hstage
      obtain ⟨hserving, hjobs⟩ := of_stageAfter?_looking hafter
      rw [h.jobs n, turn_serving hlive hserving, serve, hjobs]
      exact hjobs
  · rw [h.stage?_step hsc hlive, stageAfter?, hlooking]

theorem gone_succ (h : Run sc due found) (hgone : (found n).stage? = none) : (found (n + 1)).stage? = none := by
  rw [h.stage?_succ n, turn_of_not_live (stage?_eq_none.mp hgone), hgone]

/-- A job that waits is answered, or waits on, or nobody is there any more. -/
theorem answers_or_waits (h : Run sc due found) (hsc : sc.Only Happening.Survives) {job : Nat × Job}
    (hjob : job ∈ (found n).mail.jobs) :
    Answers job (found n) ((found n).turn sc (due n)) ∨ job ∈ (found (n + 1)).mail.jobs ∨
      (found (n + 1)).stage? = none := by
  by_cases hlives : ∃ r, (found n).runner = .live r
  · obtain ⟨r, hlive⟩ := hlives
    have hturned := turned hsc hlive (due n)
    rw [h.jobs n, h.stage?_succ n]
    generalize (found n).turn sc (due n) = c' at hturned ⊢
    cases hturned with
    | pass | fail => exact .inr (.inl hjob)
    | @serve ticket j jobs hstage hjobs journal =>
      rw [hjobs] at hjob
      rcases List.mem_cons.mp hjob with rfl | hjob
      · exact .inl ⟨hjobs, rfl, rfl⟩
      · exact .inr (.inl hjob)
    | @step left hstage hout journal =>
      have hmail := (executed_agrees sc hlive left).2.2.mail
      refine .inr (.inl ?_)
      show job ∈ ((found n).executed sc r left).mail.jobs
      rw [hmail]
      exact (mail_happen _ _).1.subset hjob
    | die | leave => exact .inr (.inr rfl)
  · exact .inr (.inr (h.gone_succ (stage?_eq_none.mpr (not_exists.mp hlives))))

/-- Whatever has been sent is answered before the run state is looked at. -/
theorem answered (h : Run sc due found) (hsc : sc.Only Happening.Survives) (hstart : (found 0).stage? = some .serving)
    {m : Nat} (hle : n ≤ m) (hstage : (found m).stage? = some .looking) {job : Nat × Job}
    (hjob : job ∈ (found n).mail.jobs) :
    ∃ l, n ≤ l ∧ l < m ∧ Answers job (found l) ((found l).turn sc (due l)) := by
  have hsofar (d : Nat) : (∃ l, n ≤ l ∧ l < n + d ∧ Answers job (found l) ((found l).turn sc (due l))) ∨
      job ∈ (found (n + d)).mail.jobs ∨ (found (n + d)).stage? = none := by
    induction d with
    | zero => exact .inr (.inl hjob)
    | succ d ih =>
      rcases ih with ⟨l, hnl, hlt, hanswers⟩ | hwaits | hgone
      · exact .inl ⟨l, hnl, Nat.lt_succ_of_lt hlt, hanswers⟩
      · rcases h.answers_or_waits hsc hwaits with hanswers | hnext
        · exact .inl ⟨n + d, Nat.le_add_right n d, Nat.lt_succ_self _, hanswers⟩
        · exact .inr hnext
      · exact .inr (.inr (h.gone_succ hgone))
  obtain ⟨d, rfl⟩ := Nat.exists_eq_add_of_le hle
  rcases hsofar d with hanswers | hwaits | hgone
  · exact hanswers
  · rw [(h.looks hsc hstart hstage).1] at hwaits
    cases hwaits
  · rw [hgone] at hstage
    cases hstage

theorem begins (h : Run sc due found) (hsc : sc.Only Happening.Survives)
    (hstage : (found (n + 1)).stage? = some .sizing) :
    (found n).stage? = some .looking ∧ (found n).board.mode = .running := by
  obtain ⟨r, hlive, hafter⟩ := h.of_stage? hsc hstage
  obtain ⟨hlooking, hmode⟩ := of_stageAfter?_sizing hafter
  exact ⟨(stage?_of_live hlive).trans (congrArg some hlooking), hmode⟩

theorem waits (h : Run sc due found) (hsc : sc.Only Happening.Survives) (hstage : (found n).stage? = some .waiting) :
    (found (n + 1)).stage? ∈ [some .waiting, some .serving] := by
  obtain ⟨r, hlive, hwaiting⟩ := stage?_eq_some.mp hstage
  rw [h.stage?_step hsc hlive, stageAfter?, hwaiting]
  dsimp only
  split
  · exact List.mem_cons_of_mem _ List.mem_cons_self
  · exact List.mem_cons_self

/-! ### Batches -/

theorem ends (h : Run sc due found) (hsc : sc.Only Happening.Survives) (hstage : (found n).stage? = some (.batch 0)) :
    (found (n + 1)).stage? = some .waiting := by
  obtain ⟨r, hlive, hbatch⟩ := stage?_eq_some.mp hstage
  rw [h.stage?_step hsc hlive, stageAfter?, hbatch]

end Run

theorem Edge.eq_zero {left : Nat} {o : Outcome} (h : Edge left o c) (ho : o = .next) : left = 0 := by
  cases h with
  | full => rfl
  | awaitingKey | fault | breakdown => cases ho

namespace Batch

variable {due : Nat → Bool} {found : Nat → Console} {n k : Nat}

theorem single (hstage : (found n).stage? = some (.batch (k + 1)))
    (hedge : Edge k ((found n).nextStep sc).1 (found (n + 1))) : Batch sc found n (k + 1) 0 where
  lt := Nat.succ_pos k
  steps i hi := by
    rw [Nat.le_zero.mp hi]
    exact hstage
  goes i hi := absurd hi i.not_lt_zero
  edge := hedge

/-- A batch goes on after its first instruction. -/
theorem cons {last : Nat} (hstage : (found n).stage? = some (.batch (k + 1))) (hout : ((found n).nextStep sc).1 = .next)
    (h : Batch sc found (n + 1) k last) : Batch sc found n (k + 1) (last + 1) where
  lt := Nat.succ_lt_succ h.lt
  steps i hi := by
    cases i with
    | zero => exact hstage
    | succ i =>
      rw [← Nat.succ_add_eq_add_succ, Nat.add_sub_add_right]
      exact h.steps i (Nat.le_of_succ_le_succ hi)
  goes i hi := by
    cases i with
    | zero => exact hout
    | succ i =>
      rw [← Nat.succ_add_eq_add_succ]
      exact h.goes i (Nat.lt_of_succ_lt_succ hi)
  edge := by
    have hnext : n + (last + 1) = n + 1 + last := Nat.add_right_comm n last 1
    rw [hnext, Nat.add_sub_add_right]
    exact h.edge

end Batch

namespace Run

variable {due : Nat → Bool} {found : Nat → Console} {n : Nat}

/-- After an instruction the batch goes on, or this is where it ends. -/
theorem goes_or_edge (h : Run sc due found) (hsc : sc.Only Happening.Survives) {left : Nat}
    (hstage : (found n).stage? = some (.batch (left + 1))) :
    ((found n).nextStep sc).1 = .next ∧ (found (n + 1)).stage? = some (.batch left) ∨
      Edge left ((found n).nextStep sc).1 (found (n + 1)) := by
  obtain ⟨r, hlive, hbatch⟩ := stage?_eq_some.mp hstage
  have hafter := h.stage?_step hsc hlive
  simp only [stageAfter?, hbatch] at hafter
  cases hout : ((found n).nextStep sc).1 with
  | breakdown =>
    refine .inr (.breakdown ?_)
    rw [h.runner n, turn_instr hlive hbatch]
    rcases instr_of_survives hsc hlive left with ⟨-, hinstr⟩ | ⟨hgoes, -⟩
    · rw [hinstr]
      rfl
    · exact absurd hout hgoes
  | next =>
    rw [hout, if_neg nofun] at hafter
    exact .inl ⟨rfl, hafter⟩
  | awaitingKey =>
    rw [hout, if_neg nofun] at hafter
    exact .inr (.awaitingKey hafter)
  | fault f =>
    rw [hout, if_neg nofun] at hafter
    exact .inr (.fault hafter)

theorem batch (h : Run sc due found) (hsc : sc.Only Happening.Survives) {k : Nat}
    (hstage : (found n).stage? = some (.batch (k + 1))) : ∃ last, Batch sc found n (k + 1) last := by
  induction k generalizing n with
  | zero =>
    rcases h.goes_or_edge hsc hstage with ⟨hout, hover⟩ | hedge
    · exact ⟨0, .single hstage (hout ▸ .full hover)⟩
    · exact ⟨0, .single hstage hedge⟩
  | succ k ih =>
    rcases h.goes_or_edge hsc hstage with ⟨hout, hgoes⟩ | hedge
    · obtain ⟨last, hbatch⟩ := ih hgoes
      exact ⟨last + 1, .cons hstage hout hbatch⟩
    · exact ⟨0, .single hstage hedge⟩

/-- In a batch all instructions since its beginning went on. -/
theorem since_sizing (h : Run sc due found) (hsc : sc.Only Happening.Survives)
    (hstart : (found 0).stage? = some .serving) {left : Nat} (hstage : (found n).stage? = some (.batch left)) :
    ∃ (m i : Nat) (r : Runner), (found m).runner = .live r ∧ r.stage = .sizing ∧ n = m + 1 + i ∧
      left + i = (Settings.perBatch (found m).board.rate r.batchRate).toNat ∧
      ∀ j < i, ((found (m + 1 + j)).nextStep sc).1 = .next := by
  induction n generalizing left with
  | zero =>
    rw [hstage] at hstart
    cases hstart
  | succ n ih =>
    obtain ⟨r, hlive, hafter⟩ := h.of_stage? hsc hstage
    rcases of_stageAfter?_batch hafter with ⟨hsizing, hsize⟩ | ⟨hbatch, hout⟩
    · exact ⟨n, 0, r, hlive, hsizing, rfl, hsize, nofun⟩
    · obtain ⟨m, i, r', hlive', hsizing, rfl, hsize, hgoes⟩ :=
        ih ((stage?_of_live hlive).trans (congrArg some hbatch))
      refine ⟨m, i + 1, r', hlive', hsizing, rfl, by omega, fun j hj => ?_⟩
      rcases Nat.lt_succ_iff_lt_or_eq.mp hj with hj | rfl
      · exact hgoes j hj
      · exact hout

theorem within (h : Run sc due found) (hsc : sc.Only Happening.Survives) (hlive : (found 0).runner = .live r)
    (hstart : r.stage = .serving) {left : Nat} (hstage : (found n).stage? = some (.batch (left + 1))) :
    ∃ m last i, (found m).stage? = some .sizing ∧ i ≤ last ∧ n = m + 1 + i ∧
      Batch sc found (m + 1) (Settings.perBatch (found m).board.rate r.batchRate).toNat last := by
  obtain ⟨m, i, r', hlive', hsizing, rfl, hsize, hgoes⟩ :=
    h.since_sizing hsc ((stage?_of_live hlive).trans (congrArg some hstart)) hstage
  have hrate := h.batchRate hsc hlive hlive'
  rw [hrate] at hsize
  have hbegun : (found (m + 1)).stage? = some (.batch (left + i + 1)) := by
    rw [h.stage?_step hsc hlive', stageAfter?, hsizing]
    simp only [hrate, ← hsize, Nat.add_right_comm]
  obtain ⟨last, hbatch⟩ := h.batch hsc hbegun
  refine ⟨m, last, i, (stage?_of_live hlive').trans (congrArg some hsizing), ?_, rfl, ?_⟩
  · -- the batch cannot have ended before: its instructions went on, and some were left to go
    by_contra hlt
    have hzero := hbatch.edge.eq_zero (hgoes last (Nat.not_le.mp hlt))
    omega
  · rw [← hsize, Nat.add_right_comm]
    exact hbatch

/-! ### The end -/

theorem stays (h : Run sc due found) {p : Processor} (hended : (found n).runner = .ended p) (m : Nat) :
    (found (n + m)).runner = .ended p ∧ (found (n + m)).turn sc (due (n + m)) = found (n + m) := by
  have hturn {k : Nat} (hk : (found k).runner = .ended p) : (found k).turn sc (due k) = found k :=
    turn_of_not_live (fun r => hk ▸ nofun) (due k)
  induction m with
  | zero => exact ⟨hended, hturn hended⟩
  | succ m ih =>
    have hnext : (found (n + m + 1)).runner = .ended p := by
      rw [h.runner, ih.2]
      exact ih.1
    exact ⟨hnext, hturn hnext⟩

theorem leaves (h : Run sc due found) (hstage : (found n).stage? = some .leaving) :
    (∃ p, (found (n + 1)).runner = .ended p) ∧ (found (n + 1)).mail.jobs = [] ∧
      ∀ m ≥ n, ((found m).turn sc (due m)).mail.replies = (found m).mail.replies := by
  obtain ⟨r, hlive, hleaving⟩ := stage?_eq_some.mp hstage
  have hturn : (found n).turn sc (due n) =
      { found n with runner := .ended r.processor, mail := (found n).mail.close } := by
    rw [turn_of_live hlive, runnerMove, hleaving]
  have hended : (found (n + 1)).runner = .ended r.processor := by rw [h.runner n, hturn]
  refine ⟨⟨r.processor, hended⟩, ?_, fun m hm => ?_⟩
  · rw [h.jobs n, hturn]
    rfl
  · rcases Nat.eq_or_lt_of_le hm with rfl | hlt
    · rw [hturn]
      rfl
    · obtain ⟨d, rfl⟩ := Nat.exists_eq_add_of_le hlt
      rw [(h.stays hended d).2]

theorem fails (h : Run sc due found) {f : Fault} (hstage : (found n).stage? = some (.failing f)) :
    (found (n + 1)).stage? = some .leaving ∧ ((found n).turn sc (due n)).board = (found n).board.fail f ∧
      ∀ m ≥ n, ((found m).turn sc (due m)).mail.replies = (found m).mail.replies := by
  obtain ⟨r, hlive, hfailing⟩ := stage?_eq_some.mp hstage
  have hturn : (found n).turn sc (due n) =
      { (found n).runnerAt r .leaving with board := (found n).board.fail f } := by
    rw [turn_of_live hlive, runnerMove, hfailing]
  have hleaving : (found (n + 1)).stage? = some .leaving := by
    rw [h.stage?_succ n, hturn]
    rfl
  refine ⟨hleaving, by rw [hturn], fun m hm => ?_⟩
  rcases Nat.eq_or_lt_of_le hm with rfl | hlt
  · rw [hturn]
    rfl
  · exact (h.leaves hleaving).2.2 m hlt

end Run

/-! ### Stack pointers -/

namespace Sound

theorem of_live (hlive : c.runner = .live r) (hsp : r.processor.sp ≤ 16) (hjobs : ∀ job ∈ c.mail.jobs, job.2.Sound) :
    c.Sound where
  alive := by
    rw [hlive]
    rintro ⟨⟩
  sp_le r' hr' := by
    rw [hlive] at hr'
    cases hr'
    exact hsp
  jobs := hjobs

theorem turn (h : c.Sound) (hsc : sc.Only Happening.Survives) (hsound : sc.Only Happening.Sound) (due : Bool) :
    (c.turn sc due).Sound := by
  by_cases hlives : ∃ r, c.runner = .live r
  · obtain ⟨r, hlive⟩ := hlives
    have hsp : (c.session c.processor).sp ≤ 16 := by
      rw [processor_of_live hlive]
      exact h.sp_le r hlive
    have hturned := turned hsc hlive due
    generalize c.turn sc due = c' at hturned ⊢
    cases hturned with
    | pass | fail => exact of_live rfl (h.sp_le r hlive) h.jobs
    | @serve ticket j jobs hstage hjobs journal =>
      have hj : j.Sound := h.jobs (ticket, j) (hjobs ▸ List.mem_cons_self)
      exact of_live rfl (hj.leaves hsp) fun job hjob => h.jobs job (hjobs ▸ List.mem_cons_of_mem _ hjob)
    | @step left hstage hout journal =>
      obtain ⟨hrunner, -, hagrees⟩ := executed_agrees sc hlive left
      refine of_live hrunner (Session.sp_le_step _ hsp) ?_
      show ∀ job ∈ (c.executed sc r left).mail.jobs, _
      rw [hagrees.mail]
      exact sound_happen h.jobs (hsound.during _ _)
    | die hstage hout => exact absurd hout (Session.step_ne_breakdown _ hsp)
    | leave hstage =>
      refine ⟨?_, ?_, ?_⟩
      · rintro ⟨⟩
      · rintro _ ⟨⟩
      · rintro _ ⟨⟩
  · rw [turn_of_not_live (not_exists.mp hlives)]
    exact h

end Sound

/-- **A run is cut between two batches.**  Let a runner that is at the beginning of a round find these consoles, and let
no call fail.  Nothing else is asked of run state, rate, queue, clock, and of what happens during the calls or between the
moves.  Every batch has the size that belongs to the rate at its beginning, and ends before its last instruction only with
one that awaits a key, or that faults; the queue is served before the run state is looked at; the jobs of a batch with a
fault are thrown away.  A runner breaks down only over a stack pointer that was beyond the stack from the beginning, or
in a machine that it was told to take over. -/
theorem Run.keepsEdges {due : Nat → Bool} {found : Nat → Console} (h : Run sc due found)
    (hlive : (found 0).runner = .live r) (hstage : r.stage = .serving) (hsc : sc.Only Happening.Survives) :
    KeepsEdges sc due r.batchRate found ∧
      ((found 0).Sound → sc.Only Happening.Sound → ∀ n, (found n).runner ≠ .died) := by
  have hstart : (found 0).stage? = some .serving := (stage?_of_live hlive).trans (congrArg some hstage)
  refine ⟨?_, fun hsound hposts n => ?_⟩
  · exact {
      batch := fun n hsizing => by
        obtain ⟨r', hlive', hsizing⟩ := stage?_eq_some.mp hsizing
        have hpos : 1 ≤ (Settings.perBatch (found n).board.rate r.batchRate).toNat := Settings.one_le_perBatch ..
        refine ⟨hpos, ?_⟩
        obtain ⟨k, hk⟩ := Nat.exists_eq_add_of_le' hpos
        have hbegun : (found (n + 1)).stage? = some (.batch (k + 1)) := by
          rw [h.stage?_step hsc hlive', stageAfter?, hsizing]
          simp only [h.batchRate hsc hlive hlive', hk]
        rw [hk]
        exact h.batch hsc hbegun
      within := fun n left => h.within hsc hlive hstage
      steps := fun n left => steps_turn hsc
      holds := fun n => holds_turn hsc
      ends := fun n => h.ends hsc
      waits := fun n => h.waits hsc
      serves := fun n hserving => h.serves hsc hserving rfl
      looks := fun n => h.looks hsc hstart
      answered := fun n m hle hlooking job hjob => h.answered hsc hstart hle hlooking hjob
      begins := fun n => h.begins hsc
      fails := fun n f => h.fails
      leaves := fun n => h.leaves }
  · have hall : (found n).Sound := by
      induction n with
      | zero => exact hsound
      | succ n ih =>
        have hturn := ih.turn hsc hposts (due n)
        refine ⟨h.runner n ▸ hturn.alive, ?_, h.jobs n ▸ hturn.jobs⟩
        rw [h.runner n]
        exact hturn.sp_le
    exact hall.alive

def asking : Processor :=
  { Processor.powerOn with
    memory := Bytes.put (.replicate _ 0) Memory.programStart [0xE0, 0x9E, 0xE0, 0x9E, 0xE0, 0x9E, 0xE0, 0x9E] }

/-- A runner with that program, at four instructions a batch; somebody waits for a copy. -/
def asked : Console where
  board := { mode := .running, rate := 200 }
  mail := { jobs := [(0, .capture)], next := 1 }
  runner := .live { processor := asking, batchRate := 50 }

/-- During the second question the run is stopped, the rate is changed and another copy is asked for. -/
def interrupting : Scenario where
  key _ := none
  random _ := 0
  happenings n := if n = 1 then [.mode .stopped, .rate 5000, .post .capture] else []

theorem interrupting_only {P : Happening → Prop} (hmode : P (.mode .stopped)) (hrate : P (.rate 5000))
    (hpost : P (.post .capture)) : interrupting.Only P := by
  refine fun n => ⟨fun x hx => ?_, nofun⟩
  by_cases hn : n = 1
  · subst hn
    rcases List.mem_cons.mp hx with rfl | hx
    · exact hmode
    rcases List.mem_cons.mp hx with rfl | hx
    · exact hrate
    · rw [List.mem_singleton.mp hx]
      exact hpost
  · simp [interrupting, hn] at hx

/-- The batch has two more instructions when the run is stopped. -/
theorem keepsEdges_interrupted :
    let found := asked.alone interrupting fun _ => true
    (found 3).stage? = some .sizing ∧ (found 6).board.mode = .stopped ∧ (found 6).stage? = some (.batch 2) ∧
      (∃ last, Batch interrupting found 4 4 last) ∧ ∀ n, (found n).runner ≠ .died := by
  have hsc : interrupting.Only Happening.Survives := interrupting_only trivial trivial trivial
  have hsizing : (asked.alone interrupting (fun _ => true) 3).stage? = some .sizing := by decide +kernel
  have hsound : asked.Sound := by
    refine ⟨nofun, fun r hr => ?_, fun job hjob => ?_⟩
    · cases hr
      decide
    · rw [List.mem_singleton.mp hjob]
      trivial
  obtain ⟨hkeeps, halive⟩ := (run_alone interrupting (fun _ => true) asked).keepsEdges rfl rfl hsc
  refine ⟨hsizing, by decide +kernel, by decide +kernel, ?_, halive hsound (interrupting_only trivial trivial trivial)⟩
  have hsize : (Settings.perBatch (asked.alone interrupting (fun _ => true) 3).board.rate 50).toNat = 4 := by
    decide +kernel
  obtain ⟨-, hbatch⟩ := hkeeps.batch 3 hsizing
  rwa [hsize] at hbatch

end Console

end ChipEight
