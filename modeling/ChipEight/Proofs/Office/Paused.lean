import ChipEight.Proofs.Edges
import ChipEight.Proofs.Office.Birth

/-!
# A paused run keeps machines

While the run state is `paused` `run_interpreter` and `run_timer` go round without an instruction and without a tick,
and the runner answers the jobs that are sent to it.  It is a store then: a copy is of the machine that was put there
last.

* `Job.latest`, `Job.along` : the machine after some jobs, and what is made of each job by the machine before it.
* `Scene.Paused` : both clocks are between two of their rounds.
* `Scene.Stores` : what has come of the jobs that were sent.
* `Scene.Paused.stores` : whatever is sent, and whoever takes turns, this is what comes of it.
-/

namespace ChipEight

namespace Job

def restored? : Job → Option Machine
  | .capture => none
  | .restore m => some m

/-- The machine that was restored last, or `m` when none was. -/
def latest (m : Machine) (jobs : List (Nat × Job)) : Machine := (jobs.filterMap fun job => job.2.restored?).getLastD m

/-- What is remembered of a job that is answered by a runner with this machine. -/
def event (m : Machine) : Job → Event
  | .capture => .copied .runner m
  | .restore m' => .replaced .runner m'

section

variable {α : Type}

/-- What `f` makes of each job and the machine that was restored last before it. -/
def along (f : Machine → Nat × Job → α) (m : Machine) (jobs : List (Nat × Job)) : List α :=
  jobs.mapIdx fun i job => f (latest m (jobs.take i)) job

/-- The replies to jobs, the first of them by a runner with the machine `m`. -/
def replies : Machine → List (Nat × Job) → List (Nat × Reply) := along fun m job => (job.1, job.2.reply m)

def events : Machine → List (Nat × Job) → List Event := along fun m job => job.2.event m

variable (f : Machine → Nat × Job → α) (m : Machine) (jobs : List (Nat × Job)) (job : Nat × Job)

theorem latest_concat : latest m (jobs ++ [job]) = job.2.leaves (latest m jobs) := by
  obtain ⟨ticket, j⟩ := job
  cases j with
  | capture => simp [latest, restored?, leaves]
  | restore m' => simp [latest, restored?, leaves]

theorem along_concat : along f m (jobs ++ [job]) = along f m jobs ++ [f (latest m jobs) job] := by
  unfold along
  rw [List.mapIdx_concat, List.take_left]
  congr 1
  refine List.mapIdx_eq_mapIdx_iff.mpr fun i hi => ?_
  rw [List.take_append_of_le_length (Nat.le_of_lt hi)]

end

end Job

/-- What can happen around a paused run: a clock takes a turn, or somebody sends a job. -/
inductive PausedTurn where
  | runner (due : Bool)
  | metronome (due fatal : Bool)
  | send (j : Job)
  deriving DecidableEq

namespace PausedTurn

def sent? : PausedTurn → Option Job
  | .send j => some j
  | _ => none

def isRunner : PausedTurn → Bool
  | .runner _ => true
  | _ => false

end PausedTurn

namespace Scene

def take (sc : Scenario) (s : Scene) : PausedTurn → Scene
  | .runner due => s.clocked sc (.runner due)
  | .metronome due fatal => s.clocked sc (.metronome due fatal)
  | .send j => { s with console := (s.console.post j).2 }

/-- The run is paused, and each clock is between two of its rounds. -/
structure Paused (s : Scene) : Prop where
  mode : s.console.board.mode = .paused
  runner : s.console.stage? = some .serving ∨ s.console.stage? = some .looking ∨ s.console.stage? = some .waiting
  metronome : ∀ m, s.console.metronome = .live m → m = .looking

/-- From `s` to `s'` these jobs were sent and the `served` ones were answered.  Only copies were made and machines
replaced, and the surroundings were not called. -/
structure Stores (s : Scene) (sent : List Job) (served : List (Nat × Job)) (s' : Scene) : Prop where
  paused : s'.Paused
  /-- Jobs are taken in the order in which they were sent, each of them once. -/
  queue : (sent.foldl Mailbox.post s.console.mail).jobs = served ++ s'.console.mail.jobs
  next : (sent.foldl Mailbox.post s.console.mail).next = s'.console.mail.next
  /-- A copy is of the machine that was restored last. -/
  replies : s'.console.mail.replies = s.console.mail.replies ++ Job.replies s.console.machine served
  machine : s'.console.machine = Job.latest s.console.machine served
  past : s'.past = s.past ++ Job.events s.console.machine served
  tally : s'.console.tally = s.console.tally
  rate : s'.console.board.rate = s.console.board.rate
  fault : s'.console.board.fault = s.console.board.fault

variable {sc : Scenario} {s s' : Scene} {sent : List Job} {served : List (Nat × Job)}

/-! ### Turns -/

/-- A turn of the runner: it goes on to another stage, or it answers the next job. -/
inductive Rounds (s : Scene) : Scene → Prop
  | pass {r : Runner} {stage : Runner.Stage} (hlive : s.console.runner = .live r)
      (hstage : s.console.mail.jobs = [] ∧ stage = .looking ∨ r.stage ≠ .serving ∧ stage = .serving) :
      Rounds s { s with console := s.console.runnerAt r stage }
  | serve {r : Runner} {job : Nat × Job} {jobs : List (Nat × Job)} (hlive : s.console.runner = .live r)
      (hstage : r.stage = .serving) (hjobs : s.console.mail.jobs = job :: jobs) (journal : Journal) :
      Rounds s
        ⟨{ s.console with
            runner := .live { r with processor := (job.2.leaves s.console.machine).toProcessor }
            board := s.console.board.restore (job.2.leaves s.console.machine).toTimers
              (job.2.leaves s.console.machine).screen
            mail := { s.console.mail with jobs }.reply job.1 (job.2.reply s.console.machine)
            journal },
          s.past ++ [job.2.event s.console.machine]⟩

/-- The runner goes round without an instruction. -/
theorem Paused.rounds (h : s.Paused) (sc : Scenario) (due : Bool) : s.Rounds (s.take sc (.runner due)) := by
  rcases h.runner with hstage | hstage | hstage
  · obtain ⟨r, hlive, hserving⟩ := Console.stage?_eq_some.mp hstage
    simp only [take, clocked, hlive, Console.runnerMove, Runner.events, hserving]
    rcases hjobs : s.console.mail.jobs with _ | ⟨⟨ticket, j⟩, jobs⟩
    · simp only [Console.serve, hjobs, List.append_nil]
      exact .pass hlive (.inl ⟨hjobs, rfl⟩)
    · obtain ⟨journal, hserve⟩ := Console.serve_cons hlive hjobs
      have hround := Rounds.serve hlive hserving hjobs journal
      rw [hserve]
      cases j with
      | capture =>
        have hmachine : s.console.board.machine r.processor = s.console.machine := by
          rw [Console.machine, Console.processor_of_live hlive]
        rw [hmachine]
        exact hround
      | restore m => exact hround
  · obtain ⟨r, hlive, hlooking⟩ := Console.stage?_eq_some.mp hstage
    have hnot : r.stage ≠ .serving := by
      rw [hlooking]
      rintro ⟨⟩
    simp only [take, clocked, hlive, Console.runnerMove, Runner.events, hlooking, Console.look, h.mode, List.append_nil]
    exact .pass hlive (.inr ⟨hnot, rfl⟩)
  · obtain ⟨r, hlive, hwaiting⟩ := Console.stage?_eq_some.mp hstage
    have hnot : r.stage ≠ .serving := by
      rw [hwaiting]
      rintro ⟨⟩
    have hover : (due || s.console.board.mode != .running) = true := by
      rw [h.mode]
      exact Bool.or_true due
    simp only [take, clocked, hlive, Console.runnerMove, Runner.events, hwaiting, if_pos hover, List.append_nil]
    exact .pass hlive (.inr ⟨hnot, rfl⟩)

theorem Paused.take_metronome (h : s.Paused) (due fatal : Bool) : s.take sc (.metronome due fatal) = s := by
  simp only [take, clocked]
  split
  · next m hlive =>
    rw [h.metronome m hlive]
    simp only [Console.metronomeMove, h.mode, Metronome.events, List.append_nil]
  · rfl

theorem Paused.take_send (h : s.Paused) (j : Job) :
    s.take sc (.send j) = { s with console := { s.console with mail := s.console.mail.post j } } := by
  rcases h.runner with hstage | hstage | hstage
  all_goals
    obtain ⟨r, hlive, -⟩ := Console.stage?_eq_some.mp hstage
    simp only [take, Console.post, hlive]

/-! ### One turn after another -/

namespace Stores

theorem refl (h : s.Paused) : s.Stores [] [] s where
  paused := h
  queue := rfl
  next := rfl
  replies := (List.append_nil _).symm
  machine := rfl
  past := (List.append_nil _).symm
  tally := rfl
  rate := rfl
  fault := rfl

/-- A round of the runner. -/
theorem rounds (h : s.Stores sent served s') {s'' : Scene} (hround : s'.Rounds s'') :
    ∃ served', s.Stores sent served' s'' := by
  cases hround with
  | @pass r stage hlive hstage =>
    refine ⟨served, { h with paused := ⟨h.paused.mode, ?_, h.paused.metronome⟩, machine := ?_ }⟩
    · rcases hstage with ⟨-, rfl⟩ | ⟨-, rfl⟩
      · exact .inr (.inl rfl)
      · exact .inl rfl
    · rw [← h.machine, Console.machine, Console.machine, Console.processor_of_live hlive]
      rfl
  | @serve r job jobs hlive hstage hjobs journal =>
    refine ⟨served ++ [job], ?_⟩
    have hmachine := h.machine
    exact {
      paused := ⟨h.paused.mode, .inl (congrArg some hstage), h.paused.metronome⟩
      queue := by
        rw [h.queue, hjobs, List.append_assoc]
        rfl
      next := h.next
      replies := by
        show s'.console.mail.replies ++ [(job.1, job.2.reply s'.console.machine)] = _
        rw [h.replies, hmachine, Job.replies, Job.along_concat, List.append_assoc]
      machine := by
        rw [Job.latest_concat, ← hmachine]
        rfl
      past := by
        show s'.past ++ [job.2.event s'.console.machine] = _
        rw [h.past, hmachine, Job.events, Job.along_concat, List.append_assoc]
      tally := h.tally
      rate := h.rate
      fault := h.fault }

theorem send (h : s.Stores sent served s') (j : Job) : s.Stores (sent ++ [j]) served (s'.take sc (.send j)) := by
  rw [h.paused.take_send]
  have hpost : (sent ++ [j]).foldl Mailbox.post s.console.mail = (sent.foldl Mailbox.post s.console.mail).post j := by
    rw [List.foldl_append]
    rfl
  refine { h with
    paused := ⟨h.paused.mode, h.paused.runner, h.paused.metronome⟩
    queue := ?_
    next := ?_ }
  · rw [hpost]
    simp only [Mailbox.post, h.queue, h.next, List.append_assoc]
  · rw [hpost]
    simp only [Mailbox.post, h.next]

theorem turn (h : s.Stores sent served s') (sc : Scenario) (t : PausedTurn) :
    ∃ served', s.Stores (sent ++ t.sent?.toList) served' (s'.take sc t) := by
  cases t with
  | runner due =>
    have hsent : sent ++ (PausedTurn.runner due).sent?.toList = sent := List.append_nil sent
    rw [hsent]
    exact h.rounds (h.paused.rounds sc due)
  | metronome due fatal =>
    have hsent : sent ++ (PausedTurn.metronome due fatal).sent?.toList = sent := List.append_nil sent
    rw [hsent, h.paused.take_metronome]
    exact ⟨served, h⟩
  | send j => exact ⟨served, h.send j⟩

end Stores

def takes (sc : Scenario) (s : Scene) (turns : List PausedTurn) : Scene := turns.foldl (take sc) s

theorem Stores.turns (h : s.Stores sent served s') (sc : Scenario) (turns : List PausedTurn) :
    ∃ served', s.Stores (sent ++ turns.filterMap PausedTurn.sent?) served' (s'.takes sc turns) := by
  induction turns generalizing sent served s' with
  | nil =>
    rw [List.filterMap_nil, List.append_nil]
    exact ⟨served, h⟩
  | cons t turns ih =>
    obtain ⟨served', hnext⟩ := h.turn sc t
    have hrest := ih hnext
    rw [List.append_assoc] at hrest
    have hsent : (t :: turns).filterMap PausedTurn.sent? = t.sent?.toList ++ turns.filterMap PausedTurn.sent? := by
      cases t <;> rfl
    rwa [hsent]

/-! ### Progress -/

/-- A bound on the turns of the runner until no job waits. -/
def backlog (s : Scene) : Nat :=
  if s.console.mail.jobs = [] then 0
  else s.console.mail.jobs.length + if s.console.stage? = some .serving then 0 else 1

theorem backlog_eq_zero_iff : s.backlog = 0 ↔ s.console.mail.jobs = [] := by
  unfold backlog
  split
  · next hjobs => exact iff_of_true rfl hjobs
  · next hjobs =>
    have hpos := List.length_pos_iff.mpr hjobs
    exact iff_of_false (by omega) hjobs

theorem backlog_le (s : Scene) : s.backlog ≤ s.console.mail.jobs.length + 1 := by
  unfold backlog
  split
  · exact Nat.zero_le _
  · split <;> omega

/-- Every round brings the runner nearer to the end of the queue. -/
theorem Rounds.backlog_le (h : s.Rounds s') : s'.backlog ≤ s.backlog - 1 := by
  cases h with
  | @pass r stage hlive hstage =>
    rcases hstage with ⟨hjobs, -⟩ | ⟨hstage, rfl⟩
    · have hdone : ({ s with console := s.console.runnerAt r stage } : Scene).backlog = 0 := backlog_eq_zero_iff.mpr hjobs
      rw [hdone]
      exact Nat.zero_le _
    · have hbefore : s.console.stage? ≠ some .serving := by
        rw [Console.stage?_of_live hlive]
        exact fun h => hstage (Option.some.inj h)
      have hafter : (s.console.runnerAt r .serving).stage? = some .serving := rfl
      have hjobs : (s.console.runnerAt r .serving).mail.jobs = s.console.mail.jobs := rfl
      simp only [backlog, hafter, hbefore, hjobs, if_true, if_false]
      split <;> omega
  | @serve r job jobs hlive hstage hjobs journal =>
    have hbefore : s.console.stage? = some .serving := hstage ▸ Console.stage?_of_live hlive
    have hlength : s.backlog = jobs.length + 1 := by
      rw [backlog, if_neg (hjobs ▸ List.cons_ne_nil job jobs), if_pos hbefore, hjobs]
      rfl
    rw [hlength]
    simp only [backlog, Mailbox.reply, Console.stage?, hstage, if_true]
    split <;> simp

/-- While nobody sends anything, as many turns of the runner as there are jobs, and one more, empty the queue. -/
theorem Paused.backlog_takes (h : s.Paused) (sc : Scenario) {turns : List PausedTurn}
    (hquiet : turns.filterMap PausedTurn.sent? = []) :
    (s.takes sc turns).backlog ≤ s.backlog - turns.countP PausedTurn.isRunner := by
  induction turns generalizing s with
  | nil => exact Nat.le_refl _
  | cons t turns ih =>
    obtain ⟨served, hnext⟩ := (Stores.refl h).turn sc t
    cases t with
    | send j => cases hquiet
    | runner due =>
      have hround := (h.rounds sc due).backlog_le
      have hrest := ih hnext.paused hquiet
      rw [List.countP_cons_of_pos rfl]
      show ((s.take sc (.runner due)).takes sc turns).backlog ≤ _
      omega
    | metronome due fatal =>
      rw [List.countP_cons_of_neg Bool.false_ne_true]
      show ((s.take sc (.metronome due fatal)).takes sc turns).backlog ≤ _
      rw [h.take_metronome]
      exact ih h hquiet

/-- **A paused run keeps machines.**  Let the run be paused and each clock be between two of its rounds.  Whatever jobs are
sent, and whoever takes turns in whatever order: they are answered one after the other, a copy is of the machine that was
restored last before it, and nothing else happens.  When the runner has taken one turn more than there are jobs left, all
of them are answered, and it has the machine that was restored last. -/
theorem Paused.stores (h : s.Paused) (sc : Scenario) (turns : List PausedTurn) :
    (∃ served, s.Stores (turns.filterMap PausedTurn.sent?) served (s.takes sc turns)) ∧
      ∀ more : List PausedTurn, more.filterMap PausedTurn.sent? = [] →
        (s.takes sc turns).console.mail.jobs.length < more.countP PausedTurn.isRunner →
          s.Stores (turns.filterMap PausedTurn.sent?)
            ((turns.filterMap PausedTurn.sent?).foldl Mailbox.post s.console.mail).jobs
            (s.takes sc (turns ++ more)) := by
  obtain ⟨served, hstores⟩ := (Stores.refl h).turns sc turns
  refine ⟨⟨served, hstores⟩, fun more hquiet hmore => ?_⟩
  obtain ⟨served', hstores'⟩ := hstores.turns sc more
  have htakes : (s.takes sc turns).takes sc more = s.takes sc (turns ++ more) := List.foldl_append.symm
  rw [hquiet, List.append_nil, htakes] at hstores'
  have hempty : (s.takes sc (turns ++ more)).console.mail.jobs = [] := by
    have hle := hstores.paused.backlog_takes sc hquiet
    have hbound := backlog_le (s.takes sc turns)
    rw [← htakes]
    exact backlog_eq_zero_iff.mp (by omega)
  have hall := hstores'.queue
  rw [hempty, List.append_nil] at hall
  rw [List.nil_append] at hstores' hall
  rw [hall]
  exact hstores'

/-- A paused run with a job in the queue. -/
def onHold : Scene where
  console := {
    board := { mode := .paused }
    mail := { jobs := [(0, .capture)], next := 1 }
    runner := .live { processor := .powerOn, batchRate := 50 }
    metronome := .live .looking }

def ticking : Machine := { Machine.powerOn with delay := 7, sound := 2 }

/-- A machine whose timers run is sent and a copy asked for, while both clocks take turns. -/
def sending : List PausedTurn := [.send (.restore ticking), .runner false, .metronome true false, .send .capture]

/-- The first copy is of the machine that was there, the second one of the machine that was sent. -/
theorem stores_onHold :
    onHold.Paused ∧
      (onHold.takes Office.alone (sending ++ .replicate 3 (.runner false))).console.mail.replies =
        [(0, .captured onHold.console.machine), (1, .restored), (2, .captured ticking)] ∧
      (onHold.takes Office.alone (sending ++ .replicate 3 (.runner false))).console.machine = ticking := by
  have hpaused : onHold.Paused := by
    refine ⟨rfl, .inl rfl, fun m hm => ?_⟩
    cases hm
    rfl
  have hmore : (onHold.takes Office.alone sending).console.mail.jobs.length <
      (List.replicate 3 (PausedTurn.runner false)).countP PausedTurn.isRunner := by decide +kernel
  have hstores := (hpaused.stores Office.alone sending).2 (.replicate 3 (.runner false)) rfl hmore
  exact ⟨hpaused, hstores.replies, hstores.machine⟩

end Scene

end ChipEight
