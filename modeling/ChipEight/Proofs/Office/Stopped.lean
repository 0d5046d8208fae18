import ChipEight.Proofs.Office.Answers

/-!
# A run that a fault has ended stays stopped

The fault sets the run state to `stopped` (`fail`).  From then on the clocks leave it alone, and of the orders only
`start` and `reset` set it to `running` without having seen it otherwise.  `pause` and `unpause` look first and write
then, and a fault may come between.

* `Procedure.Tame`, `Procedure.Halts`, `Procedure.Launches` : which run states a procedure may still set.
* `Office.Astride` : the desk has looked at the run state, and is about to set it.
* `Office.Course` : how far the desk of an office with a history is.
* `Office.Stilled.run` : where the run state is `stopped` and the desk is at nothing that sets it, it stays so.
* `Office.stays_stopped_iff` : after a fault the run state stays `stopped` unless the desk was astride.
* `Office.torn_pause` : when it was, the machine looks paused for ever.
-/

namespace ChipEight

def Action.ReadsStopped : (a : Action) → a.Answer → Prop
  | .readMode, s => s = .stopped
  | _, _ => True

def Action.StopsOnly : Action → Prop
  | .setMode s => s = .stopped
  | _ => True

theorem Action.Bounded.stopsOnly {B : Action.Bounds} (hB : ∀ s, ¬ B.modes s) {a : Action} (h : a.Bounded B) :
    a.StopsOnly := by
  cases a with
  | setMode s => exact h.resolve_right (hB s)
  | _ => trivial

namespace Procedure

variable {α β : Type}

/-- Whatever is answered, the run state is set to nothing but `stopped`. -/
def Tame (p : Procedure α) : Prop := p.Within (fun _ _ => True) Action.StopsOnly fun _ => True

/-- If the run state is `stopped`, it is set to nothing else. -/
def Halts (p : Procedure α) : Prop := p.Within Action.ReadsStopped Action.StopsOnly fun _ => True

/-- Once a runner is made, the run state is set to nothing but `stopped`. -/
def Launches : Procedure α → Prop
  | .done _ => True
  | .act .spawnRunner next => (next true).Tame ∧ (next false).Launches
  | .act _ next => ∀ x, (next x).Launches

theorem Tame.halts {p : Procedure α} (h : p.Tame) : p.Halts :=
  h.mono (fun _ _ _ => trivial) (fun _ ha => ha) fun _ _ => trivial

theorem Tame.launches {p : Procedure α} (h : p.Tame) : p.Launches := by
  induction p with
  | done r => trivial
  | act a next ih =>
    have hnext (x : a.Answer) : (next x).Launches := ih x (h.2 x trivial)
    cases a with
    | spawnRunner => exact ⟨h.2 true trivial, hnext false⟩
    | _ => exact hnext

theorem tame_of_within {p : Procedure α} {B : Action.Bounds} {Q : α → Prop}
    (h : p.Within (fun _ _ => True) (Action.Bounded B) Q) (hB : ∀ s, ¬ B.modes s) : p.Tame :=
  h.mono (fun _ _ _ => trivial) (fun _ ha => ha.stopsOnly hB) fun _ _ => trivial

theorem launches_bind {p : Procedure α} {f : α → Procedure β} {B : Action.Bounds} {Q : α → Prop}
    (h : p.Within (fun _ _ => True) (Action.Bounded B) Q) (hB : ¬ B.threads) (hf : ∀ r, (f r).Launches) :
    (p >>= f).Launches := by
  induction p with
  | done r => exact hf r
  | act a next ih =>
    have hnext (x : a.Answer) : (next x >>= f).Launches := ih x (h.2 x trivial)
    cases a with
    | spawnRunner => exact absurd h.1 hB
    | _ => exact hnext

theorem Launches.bind {p : Procedure α} {f : α → Procedure β} (h : p.Launches) (hf : ∀ r, (f r).Tame) :
    (p >>= f).Launches := by
  induction p with
  | done r => exact (hf r).launches
  | act a next ih =>
    cases a with
    | spawnRunner => exact ⟨h.1.bind fun r _ => hf r, ih false h.2⟩
    | _ => exact fun x => ih x (h x)

end Procedure

namespace Order

open Procedure (Within)

/-- Most requests leave a run state `stopped`, whatever they find. -/
theorem tame_order {q : Request} (hq : ∀ s, ¬ q.Sets s) : q.order.run.Tame :=
  Procedure.tame_of_within (request_within (fun _ _ => True) q) hq

theorem halts_pause : Request.pause.order.run.Halts := by
  refine ⟨trivial, ?_⟩
  rintro _ rfl
  trivial

theorem halts_resume : Request.resume.order.run.Halts := by
  refine ⟨trivial, ?_⟩
  rintro _ rfl
  trivial

theorem launches_launch : launch.run.Launches := by
  have haccompany : accompany.run.Within (fun _ _ => True) (Action.Bounded { threads := True })
      (Blames fun _ => True) := accompany_within trivial fun _ => trivial
  exact ⟨Procedure.tame_of_within haccompany fun _ => id, fun _ => trivial⟩

theorem launches_takeUp : takeUp.run.Launches := fun _ _ => launches_launch

theorem within_endRun :
    endRun.run.Within (fun _ _ => True) (Action.Bounded {}) (Blames fun _ => True) :=
  endRun_within fun _ => trivial

theorem launches_start : start.run.Launches := by
  rintro (_ | _)
  · exact launches_takeUp
  rintro (_ | _ | _)
  · apply Procedure.launches_bind within_endRun id
    rintro (e | _)
    · trivial
    · exact launches_takeUp
  · trivial
  · trivial

theorem launches_reset (program : List UInt8) : (reset program).run.Launches := by
  cases hp : Processor.withProgram? program with
  | none =>
    unfold reset
    rw [hp]
    trivial
  | some p =>
    have hinstall : (install program p).run.Launches := fun _ _ _ => launches_start
    have htell : (tellAndInstall program p).run.Launches := by
      rintro (_ | f)
      · exact hinstall
      · exact fun _ => hinstall
    unfold reset
    rw [hp]
    apply Procedure.launches_bind (p := (liftM endRun.run : Op (Except DeskError Unit)).run)
      (within_endRun.lifted (Q := fun _ => True) fun _ _ => trivial) id
    rintro (e | e | _)
    · trivial
    · exact fun _ => htell
    · exact htell

/-- Every request that is to make the machine run. -/
theorem launches_order {q : Request} (hq : q.Starts) : q.order.run.Launches := by
  obtain rfl | ⟨program, rfl⟩ := hq
  · apply launches_start.bind
    rintro (e | _) <;> trivial
  · apply (launches_reset program).bind
    rintro (e | _) <;> trivial

end Order

/-! ### How far the desk is -/

def Console.failing? (c : Console) : Option Fault :=
  match c.runner with
  | .live { stage := .failing f, .. } => some f
  | _ => none

theorem Console.of_failing? {c : Console} {f : Fault} (h : c.failing? = some f) :
    ∃ r, c.runner = .live r ∧ r.stage = .failing f := by
  unfold failing? at h
  split at h
  · next processor batchRate f' hlive =>
    cases h
    exact ⟨_, hlive, rfl⟩
  · cases h

/-- Somebody asks for a run. -/
def Turn.Starts : Turn → Prop
  | .call q => q.Starts
  | _ => False

def Request.Toggles (q : Request) : Prop := q = .pause ∨ q = .resume

/-- Whether somebody waits for a run that was not begun yet, if before the event it was so as `b` tells. -/
def Event.awaitsRun (b : Bool) : Event → Bool
  | .called .start | .called (.reset _) => true
  | .called _ | .answered .. | .begun => false
  | _ => b

/-- Whether somebody waits for a run that was not begun yet. -/
def awaitsRun (past : List Event) : Bool := past.foldl Event.awaitsRun false

theorem awaitsRun_append {past es : List Event} (h : awaitsRun past = true) (hinner : ∀ e ∈ es, e.Inner)
    (hbegun : .begun ∉ es) : awaitsRun (past ++ es) = true := by
  induction es using List.reverseRecOn with
  | nil => rwa [List.append_nil]
  | append_singleton es e ih =>
    have hes : awaitsRun (past ++ es) = true :=
      ih (fun e' he' => hinner e' (List.mem_append_left _ he')) fun hmem => hbegun (List.mem_append_left _ hmem)
    rw [← List.append_assoc, awaitsRun, List.foldl_append]
    change e.awaitsRun (awaitsRun (past ++ es)) = true
    cases e with
    | called q | answered q answer => exact (hinner _ (List.mem_append_right _ (List.mem_singleton_self _))).elim
    | begun => exact absurd (List.mem_append_right _ (List.mem_singleton_self _)) hbegun
    | _ => exact hes

namespace Office

/-- The desk has looked at the run state for a pause or a resume, and is about to set it. -/
def Astride (o : Office) : Prop :=
  ∃ q s next, q.Toggles ∧ s ≠ .stopped ∧ o.task = some (q, .act (.setMode s) next)

/-- What may be left to do for a request in an office with this past. -/
inductive Course (past : List Event) : Request → Procedure Request.Answer → Prop
  | tame {q p} (hp : p.Tame) : Course past q p
  | looking {q} (hq : q.Toggles) : Course past q q.order.run
  | astride {q s next} (hq : q.Toggles) (hs : s ≠ .stopped) (hnext : ∀ x, (next x).Tame) :
    Course past q (.act (.setMode s) next)
  | launching {q p} (hp : p.Launches) (hawaits : awaitsRun past = true) : Course past q p

def OnCourse (o : Office) : Prop := ∀ q p, o.task = some (q, p) → Course o.past q p

theorem Course.append {past es : List Event} {q : Request} {p : Procedure Request.Answer} (h : Course past q p)
    (hinner : ∀ e ∈ es, e.Inner) (hbegun : .begun ∉ es) : Course (past ++ es) q p := by
  cases h with
  | tame hp => exact .tame hp
  | looking hq => exact .looking hq
  | astride hq hs hnext => exact .astride hq hs hnext
  | launching hp hawaits => exact .launching hp (awaitsRun_append hawaits hinner hbegun)

/-- Only a new runner begins a run. -/
theorem begun_not_mem {a : Action} {x : a.Answer} (ha : a ≠ .spawnRunner) : .begun ∉ a.events x := by
  cases a with
  | spawnRunner => exact absurd rfl ha
  | spawnMetronome => cases x <;> simp [Action.events]
  | note n => cases n <;> simp [Action.events]
  | _ => simp [Action.events]

/-- A pause or a resume sets the run state when it has found it otherwise. -/
theorem course_of_toggles (past : List Event) {q : Request} (hq : q.Toggles) :
    ∃ next, q.order.run = .act .readMode next ∧ ∀ s, Course past q (next s) := by
  have htame (n : Note) (answer : Request.Answer) : Procedure.Tame (.act (.note n) fun _ => .done answer) :=
    ⟨trivial, fun _ _ => trivial⟩
  obtain rfl | rfl := hq
  · refine ⟨_, rfl, ?_⟩
    rintro (_ | _ | _)
    · exact .tame trivial
    · exact .astride (.inl rfl) nofun fun _ => htame _ _
    · exact .tame trivial
  · refine ⟨_, rfl, ?_⟩
    rintro (_ | _ | _)
    · exact .tame trivial
    · exact .tame trivial
    · exact .astride (.inr rfl) nofun fun _ => htame _ _

theorem Course.act {s : Scene} {q : Request} {a : Action} {next : a.Answer → Procedure Request.Answer} {x : a.Answer}
    {c : Console} (h : Course s.past q (.act a next)) : Course (s.did a x c).past q (next x) := by
  have hinner : ∀ e ∈ a.events x, e.Inner := fun e he => a.inner_of_mem_events he
  generalize hp : Procedure.act a next = p at h
  cases h with
  | tame htame =>
    subst hp
    exact .tame (htame.2 x trivial)
  | looking hq =>
    obtain ⟨next', horder, hnext⟩ := course_of_toggles s.past hq
    rw [horder] at hp
    cases hp
    exact (hnext x).append hinner (begun_not_mem (by simp))
  | astride hq hs hnext =>
    cases hp
    exact .tame (hnext x)
  | launching hlaunches hawaits =>
    subst hp
    cases a with
    | spawnRunner =>
      cases x with
      | true => exact .tame hlaunches.1
      | false =>
        exact .launching hlaunches.2 (awaitsRun_append hawaits hinner (by simp [Action.events]))
    | _ => exact .launching (hlaunches x) (awaitsRun_append hawaits hinner (begun_not_mem (by simp)))

theorem course_called (past : List Event) (q : Request) : Course (past ++ [.called q]) q q.order.run := by
  have hcalled (q : Request) : awaitsRun (past ++ [.called q]) = (Event.called q).awaitsRun (awaitsRun past) := by
    rw [awaitsRun, List.foldl_append]
    rfl
  cases q with
  | reset program => exact .launching (Order.launches_order (.inr ⟨program, rfl⟩)) (hcalled (.reset program))
  | start => exact .launching (Order.launches_order (.inl rfl)) (hcalled .start)
  | pause => exact .looking (.inl rfl)
  | resume => exact .looking (.inr rfl)
  | stop | capture | restore | save | load | setRate => exact .tame (Order.tame_order fun _ => id)

/-- **One turn** leaves the desk on course. -/
theorem OnCourse.advance {sc : Scenario} {o : Office} (hsc : sc.Only Happening.Apart) (h : o.OnCourse) (t : Turn) :
    (o.advance sc t).OnCourse := by
  obtain ⟨s, _ | ⟨q, p⟩⟩ := o
  · cases t with
    | call q =>
      rintro q' p' ⟨⟩
      exact course_called s.past q
    | runner due =>
      rw [advance_clock sc rfl]
      nofun
    | metronome due fatal =>
      rw [advance_clock sc rfl]
      nofun
    | desk | refuse | file => nofun
  · have hcourse : Course s.past q p := h q p rfl
    by_cases ht : t = .desk
    · subst ht
      cases p with
      | done answer => nofun
      | act a next =>
        show (busy s q (.act a next)).work.OnCourse
        cases hact : s.console.act a with
        | none =>
          simp only [work, busy, hact]
          exact h
        | some done =>
          simp only [work, busy, hact]
          rintro q' p' ⟨⟩
          exact hcourse.act
    · have hdrift : s.Drifts sc (s.clocked sc t) := (Scene.Drifts.refl s).clocked hsc t
      show ((busy s q p).advance sc t).OnCourse
      rw [advance_of_ne_desk sc s q p ht]
      rintro q' p' ⟨⟩
      refine hdrift.induct (P := fun s => Course s.past q p) (fun h hmoves => ?_) hcourse
      exact h.append hmoves.inner hmoves.not_begun

theorem OnCourse.run {sc : Scenario} {o : Office} (hsc : sc.Only Happening.Apart) (h : o.OnCourse)
    (turns : List Turn) : (o.run sc turns).OnCourse := by
  induction turns generalizing o with
  | nil => exact h
  | cons t turns ih => exact ih (h.advance hsc t)

theorem Reachable.onCourse {o : Office} (h : o.Reachable) : o.OnCourse := by
  induction h with
  | new s => nofun
  | run h hidle hsc turns ih => exact ih.run hsc turns

/-! ### After the fault -/

/-- The run state is `stopped`, and the desk is at nothing that sets it otherwise. -/
def Stilled (o : Office) : Prop :=
  o.Kept Action.ReadsStopped Action.StopsOnly fun s => s.console.board.mode = .stopped

/-- Where the run state is `stopped`, it stays so and reads so until the desk sets it. -/
theorem grants_stopped {sc : Scenario} (hsc : sc.Only Happening.KeepsMode) :
    Scene.Grants sc Action.ReadsStopped Action.StopsOnly (fun _ => False)
      fun s => s.console.board.mode = .stopped where
  moves h hmoves := .inr ((hmoves.mode_eq_or hsc).elim (fun hsame => hsame.trans h) id)
  acts {s a x c} h ha hact := by
    constructor
    · cases a with
      | readMode =>
        cases hact
        exact h
      | _ => trivial
    · show c.board.mode = .stopped
      rcases (Console.footprint_of_act hact).mode with hsame | rfl
      · exact hsame.trans h
      · exact ha

/-- A request for anything but a run leaves a run state `stopped`. -/
theorem halts_of_not_starts {q : Request} (hq : ¬ q.Starts) : q.order.run.Halts := by
  cases q with
  | reset program => exact absurd (.inr ⟨program, rfl⟩) hq
  | start => exact absurd (.inl rfl) hq
  | pause => exact Order.halts_pause
  | resume => exact Order.halts_resume
  | stop | capture | restore | save | load | setRate => exact (Order.tame_order fun _ => id).halts

/-- Any number of turns, if nobody asks for a run. -/
theorem Stilled.run {sc : Scenario} {o : Office} (hapart : sc.Only Happening.Apart)
    (hkeeps : sc.Only Happening.KeepsMode) (h : o.Stilled) {turns : List Turn} (hturns : ∀ t ∈ turns, ¬ t.Starts) :
    (o.run sc turns).Stilled := by
  induction turns generalizing o with
  | nil => exact h
  | cons t turns ih =>
    have hnext : (o.advance sc t).Stilled := by
      refine h.advance hapart (grants_stopped hkeeps) ⟨id, id, id, id⟩ ?_
      rintro q rfl -
      exact halts_of_not_starts (hturns (.call q) List.mem_cons_self)
    exact ih hnext fun t ht => hturns t (List.mem_cons_of_mem _ ht)

/-- The office when the runner has recorded its fault. -/
theorem advance_failing (sc : Scenario) {o : Office} {f : Fault} (hfails : o.console.failing? = some f) (due : Bool) :
    ∃ runner, o.advance sc (.runner due) =
      { o with
        console := { o.console with runner, board := o.console.board.fail f }
        past := o.past ++ [.faulted f] } := by
  obtain ⟨r, hlive, hstage⟩ := Console.of_failing? hfails
  refine ⟨.live { r with stage := .leaving }, ?_⟩
  simp only [advance, hlive, Console.runnerMove, hstage, Runner.events]
  rfl

/-- Unless the desk is astride, it is at nothing that sets the run state. -/
theorem Reachable.stilled {sc : Scenario} {o : Office} (ho : o.Reachable) (hawaits : awaitsRun o.past = false)
    {f : Fault} (hfails : o.console.failing? = some f) (hastride : ¬ o.Astride) (due : Bool) :
    (o.advance sc (.runner due)).Stilled := by
  obtain ⟨runner, hfailed⟩ := advance_failing sc hfails due
  rw [hfailed]
  refine ⟨rfl, ?_⟩
  intro q p htask
  have hcourse : Course o.past q p := ho.onCourse q p htask
  cases hcourse with
  | tame hp => exact hp.halts
  | looking hq =>
    obtain rfl | rfl := hq
    · exact Order.halts_pause
    · exact Order.halts_resume
  | astride hq hs => exact absurd ⟨_, _, _, hq, hs, htask⟩ hastride
  | launching hp hbegins =>
    rw [hawaits] at hbegins
    cases hbegins

/-- **A run that a fault has ended stays stopped**, but for one thing.  In an office with any history, whatever the desk
is at, the runner is about to record its fault, and nobody waits for a run to begin.  When the runner has recorded it,
the run state is `stopped`; and it stays so whatever happens, until somebody asks for a start or a reset, if and only if
the desk was not astride, that is between the look at the run state and the setting of it in a pause or a resume. -/
theorem stays_stopped_iff {o : Office} (ho : o.Reachable) {sc : Scenario} (hapart : sc.Only Happening.Apart)
    (hkeeps : sc.Only Happening.KeepsMode) {f : Fault} (hfails : o.console.failing? = some f)
    (hawaits : awaitsRun o.past = false) (due : Bool) :
    let failed := o.advance sc (.runner due)
    failed.console.board.mode = .stopped ∧ failed.console.board.fault = some f ∧
      ((∀ turns, (∀ t ∈ turns, ¬ t.Starts) → (failed.run sc turns).console.board.mode = .stopped) ↔ ¬ o.Astride) := by
  intro failed
  obtain ⟨runner, hfailed⟩ : ∃ runner, failed = { o with
      console := { o.console with runner, board := o.console.board.fail f }
      past := o.past ++ [.faulted f] } := advance_failing sc hfails due
  refine ⟨by rw [hfailed]; rfl, by rw [hfailed]; rfl, ?_, ?_⟩
  · rintro hstays ⟨q, s, next, hq, hs, htask⟩
    have hset := hstays [.desk] (by simp [Turn.Starts])
    rw [hfailed] at hset
    simp only [run, List.foldl_cons, List.foldl_nil, advance, work, htask] at hset
    exact hs hset
  · intro hastride turns hturns
    have hstilled : failed.Stilled := ho.stilled hawaits hfails hastride due
    exact (hstilled.run hapart hkeeps hturns).scene

/-- A program that returns from where nobody called is about to fail, and meanwhile somebody has come and the desk has
taken this many turns. -/
def failingAsked (q : Request) (n : Nat) : Office :=
  (Office.new {}).run alone (.call (.reset [0x00, 0xEE]) :: .replicate 20 .desk ++ .replicate 4 (.runner true) ++
    .call q :: .replicate n .desk)

theorem stays_stopped_iff_failingAsked :
    (failingAsked .capture 2).Reachable ∧
      (failingAsked .capture 2).console.failing? = some (.stackUnderflow 0x200) ∧
      awaitsRun (failingAsked .capture 2).past = false ∧ ¬ (failingAsked .capture 2).Astride ∧
      ∀ turns, (∀ t ∈ turns, ¬ t.Starts) →
        (((failingAsked .capture 2).advance alone (.runner true)).run alone turns).console.board.mode = .stopped := by
  have hreachable : (failingAsked .capture 2).Reachable := .run (.new {}) rfl (only_alone _) _
  obtain ⟨hfails, hawaits, hcapture⟩ : (failingAsked .capture 2).console.failing? = some (.stackUnderflow 0x200) ∧
      awaitsRun (failingAsked .capture 2).past = false ∧
      (failingAsked .capture 2).task.map Prod.fst = some .capture := by decide +kernel
  have hastride : ¬ (failingAsked .capture 2).Astride := by
    rintro ⟨q, s, next, hq, -, htask⟩
    rw [htask] at hcapture
    cases hcapture
    obtain hq | hq := hq <;> cases hq
  have hstays := stays_stopped_iff hreachable (only_alone _) (only_alone _) hfails hawaits true
  exact ⟨hreachable, hfails, hawaits, hastride, hstays.2.2.mpr hastride⟩

/-- Where there is a run that does not look stopped, a start does nothing and succeeds. -/
theorem run_start (sc : Scenario) {o : Office} (hidle : o.task = none) (hattached : o.console.desk.attached = true)
    (hmode : o.console.board.mode ≠ .stopped) :
    o.run sc (.call .start :: .replicate 3 .desk) =
      { o with past := o.past ++ [.called .start, .answered .start (.ok none)] } := by
  obtain ⟨next, next', horder, hnext, hdone⟩ :
      ∃ (next : Bool → Procedure Request.Answer) (next' : Mode → Procedure Request.Answer),
        Request.start.order.run = .act .isAttached next ∧ next true = .act .readMode next' ∧
          ∀ s, s ≠ .stopped → next' s = .done (.ok none) := by
    refine ⟨_, _, rfl, rfl, ?_⟩
    rintro (_ | _ | _) hs
    · exact absurd rfl hs
    · rfl
    · rfl
  obtain ⟨⟨c, past⟩, task⟩ := o
  cases hidle
  have hact : c.act .isAttached = some (true, c) := by
    rw [← hattached]
    rfl
  have hcalled : ({ console := c, past } : Office).advance sc (.call .start) =
      busy ⟨c, past ++ [.called .start]⟩ .start (.act .isAttached next) := by
    rw [advance_call sc rfl, horder]
    rfl
  have hlooked := advance_act sc (s := ⟨c, past ++ [.called .start]⟩) hact .start next
  have hread := advance_act sc (s := ⟨c, past ++ [.called .start]⟩) (a := .readMode) rfl .start next'
  rw [Scene.did_of_quiet rfl, hnext] at hlooked
  rw [Scene.did_of_quiet rfl, hdone _ hmode] at hread
  have hrun : ({ console := c, past } : Office).run sc (.call .start :: .replicate 3 .desk) =
      (busy ⟨c, past ++ [.called .start]⟩ .start (.done (.ok none))).advance sc .desk := by
    simp only [run, List.replicate, List.foldl_cons, List.foldl_nil, hcalled, hlooked, hread]
  rw [hrun]
  simp only [advance, work, busy, Scene.add, List.append_assoc, List.singleton_append]

/-- **A torn pause** leaves a machine that looks paused although a fault has ended its run and nothing moves it any
more.  A start does nothing about that. -/
theorem torn_pause :
    let asked := failingAsked .pause 1
    let paused := asked.run alone (.runner true :: .replicate 3 .desk ++ [.runner true])
    asked.console.failing? = some (.stackUnderflow 0x200) ∧ paused.console.board.mode = .paused ∧
      paused.console.board.fault = some (.stackUnderflow 0x200) ∧ (paused.console.moveRunner? alone true).isNone ∧
      paused.run alone (.call .start :: .replicate 3 .desk) =
        { paused with past := paused.past ++ [.called .start, .answered .start (.ok none)] } := by
  obtain ⟨hfails, hnone, hmode, hfault, hgone, hattached⟩ :
      let asked := failingAsked .pause 1
      let paused := asked.run alone (.runner true :: .replicate 3 .desk ++ [.runner true])
      asked.console.failing? = some (.stackUnderflow 0x200) ∧ paused.task.isNone = true ∧
        paused.console.board.mode = .paused ∧ paused.console.board.fault = some (.stackUnderflow 0x200) ∧
        (paused.console.moveRunner? alone true).isNone = true ∧ paused.console.desk.attached = true := by
    decide +kernel
  refine ⟨hfails, hmode, hfault, hgone, run_start alone (Option.isNone_iff_eq_none.mp hnone) hattached ?_⟩
  rw [hmode]
  nofun

end Office

end ChipEight
