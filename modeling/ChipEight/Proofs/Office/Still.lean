import ChipEight.Proofs.Office.Recovery

/-!
# A machine that stands still

The machine is paused or stopped, and neither clock is in the middle of anything.  Then `snapshot` gives equal copies.

* `Console.Still` : neither clock will change the machine, unless somebody asks for it.
* `Console.StillAt` : and this is the machine, and nobody has asked for anything but copies of it.
* `Office.kept_still` : while the desk is at such a request nothing else happens.
* `Office.copy_of_still` : the answer is the machine, and it stands still until somebody comes.
-/

namespace ChipEight

open Procedure (Within Secures)

/-! ### Consoles -/

/-- The runner is neither in a batch nor about to begin one, and has no fault to record. -/
def Runner.Stage.Between : Runner.Stage → Prop
  | .serving | .looking | .waiting | .leaving => True
  | .sizing | .batch _ | .failing _ => False

/-- Nothing happens to the machine: it is copied as it is, or somebody is told something. -/
def Event.Keeps (m : Machine) : Event → Prop
  | .copied _ m' => m' = m
  | .called _ | .answered .. | .reported _ => True
  | _ => False

theorem Request.not_capture_machines (m : Machine) : ¬ Request.capture.bounds.machines m := by
  rintro (⟨⟨⟩⟩ | ⟨⟨⟩, -⟩)

namespace Console

/-- The machine is not running, and neither clock is about to change it. -/
structure Still (c : Console) : Prop where
  held : c.board.mode ≠ .running
  runner : ∀ r, c.runner = .live r → r.stage.Between
  metronome : c.metronome ≠ .live .ticking

/-- The machine stands still, it is `m`, and nobody has asked the runner for anything but a copy. -/
structure StillAt (m : Machine) (c : Console) : Prop extends c.Still where
  lives : c.runner ≠ .died
  asked : ∀ job ∈ c.mail.jobs, job.2 = .capture
  machine : c.machine = m

namespace StillAt

variable {sc : Scenario} {m : Machine} {c c' : Console} {r : Runner}

theorem runnerAt (h : c.StillAt m) (hlive : c.runner = .live r) (stage : Runner.Stage)
    (hstage : stage.Between) (journal : Journal) : { c.runnerAt r stage with journal }.StillAt m where
  held := h.held
  runner r' hlive' := by
    cases hlive'
    exact hstage
  metronome := h.metronome
  lives := nofun
  asked := h.asked
  machine := by
    have hmachine := h.machine
    simp only [Console.machine, processor, hlive] at hmachine
    exact hmachine

/-- **A move of the runner** changes nothing. -/
theorem runnerMove (sc : Scenario) (h : c.StillAt m) (hlive : c.runner = .live r) (due : Bool) :
    (c.runnerMove sc due r).StillAt m ∧ ∀ e ∈ r.events c (c.runnerMove sc due r), e.Keeps m := by
  have hbetween : r.stage.Between := h.runner r hlive
  have hmachine : c.board.machine r.processor = m := by
    have hmachine := h.machine
    simp only [Console.machine, processor, hlive] at hmachine
    exact hmachine
  unfold Console.runnerMove Runner.events
  cases hstage : r.stage with
  | serving =>
    simp only [Console.serve]
    cases hjobs : c.mail.jobs with
    | nil => exact ⟨h.runnerAt hlive .looking trivial c.journal, by simp⟩
    | cons job jobs =>
      obtain ⟨ticket, j⟩ := job
      have hasked (job : Nat × Job) (hmem : job ∈ (ticket, j) :: jobs) : job.2 = .capture :=
        h.asked job (hjobs ▸ hmem)
      obtain rfl : j = .capture := hasked _ List.mem_cons_self
      refine ⟨⟨⟨h.held, h.runner, h.metronome⟩, h.lives, fun job hmem => hasked job (List.mem_cons_of_mem _ hmem),
        h.machine⟩, ?_⟩
      rintro _ (_ | ⟨_, ⟨⟩⟩)
      exact hmachine
  | looking =>
    simp only [Console.look]
    cases hmode : c.board.mode with
    | stopped => exact ⟨h.runnerAt hlive .leaving trivial _, by simp⟩
    | paused => exact ⟨h.runnerAt hlive .serving trivial c.journal, by simp⟩
    | running => exact absurd hmode h.held
  | waiting =>
    have hmode : (c.board.mode != .running) = true := by simpa using h.held
    simp only [hmode, Bool.or_true, if_true]
    exact ⟨h.runnerAt hlive .serving trivial c.journal, by simp⟩
  | leaving =>
    refine ⟨⟨⟨h.held, by rintro _ ⟨⟩, h.metronome⟩, by rintro ⟨⟩, by rintro _ ⟨⟩, hmachine⟩, by simp⟩
  | sizing | batch | failing =>
    rw [hstage] at hbetween
    exact hbetween.elim

/-- **A move of the metronome** changes nothing. -/
theorem metronomeMove (sc : Scenario) (h : c.StillAt m) {μ : Metronome} (hlive : c.metronome = .live μ) (due : Bool) :
    (c.metronomeMove sc due μ).StillAt m ∧ μ.events = [] := by
  have hat (μ' : Thread Metronome Unit) (hμ' : μ' ≠ .live .ticking) (tally : Tally) :
      { c with metronome := μ', tally }.StillAt m :=
    ⟨⟨h.held, h.runner, hμ'⟩, h.lives, h.asked, h.machine⟩
  cases μ with
  | looking =>
    simp only [Console.metronomeMove]
    cases hmode : c.board.mode with
    | stopped => exact ⟨hat (.live .leaving) (by rintro ⟨⟩) c.tally, rfl⟩
    | paused => exact ⟨h, rfl⟩
    | running => exact absurd hmode h.held
  | ticking => exact absurd hlive h.metronome
  | silencing | leaving =>
    refine ⟨hat _ ?_ _, rfl⟩
    split <;> rintro ⟨⟩

theorem of_same (h : c.StillAt m) (hheld : c'.board.mode ≠ .running) (htimers : c'.board.timers = c.board.timers)
    (hscreen : c'.board.screen = c.board.screen) (hrunner : c'.runner = c.runner)
    (hmetronome : c'.metronome ≠ .live .ticking) (hasked : ∀ job ∈ c'.mail.jobs, job.2 = .capture)
    (hparked : c'.desk.parked = c.desk.parked) : c'.StillAt m where
  held := hheld
  runner := hrunner ▸ h.runner
  metronome := hmetronome
  lives := hrunner ▸ h.lives
  asked := hasked
  machine := by
    rw [← h.machine]
    simp only [Console.machine, processor, Board.machine, htimers, hscreen, hrunner, hparked]

/-- **An action** that a request for a copy can do changes nothing. -/
theorem act (h : c.StillAt m) {a : Action} {x : a.Answer} (ha : a.Bounded Request.capture.bounds)
    (hact : c.act a = some (x, c')) : c'.StillAt m := by
  have hstays (hmode : c'.board.mode = c.board.mode) (htimers : c'.board.timers = c.board.timers)
      (hscreen : c'.board.screen = c.board.screen) (hrunner : c'.runner = c.runner)
      (hmetronome : c'.metronome = c.metronome) (hjobs : c'.mail.jobs = c.mail.jobs)
      (hparked : c'.desk.parked = c.desk.parked) : c'.StillAt m :=
    h.of_same (hmode ▸ h.held) htimers hscreen hrunner (hmetronome ▸ h.metronome) (hjobs ▸ h.asked) hparked
  cases a with
  | setMode s =>
    obtain rfl : s = .stopped := ha.resolve_right id
    cases hact
    exact h.of_same (by rintro ⟨⟩) rfl rfl rfl h.metronome h.asked rfl
  | post j =>
    cases j with
    | restore m' => exact absurd ha.2 (Request.not_capture_machines m')
    | capture =>
      rcases of_post hact with ⟨r, -, -, rfl⟩ | ⟨-, -, rfl⟩
      · refine h.of_same h.held rfl rfl rfl h.metronome (fun job hmem => ?_) rfl
        rcases List.mem_append.mp hmem with hmem | hmem
        · exact h.asked job hmem
        · cases List.mem_singleton.mp hmem
          rfl
      · exact h
  | collect ticket =>
    rcases of_collect hact with ⟨reply, -, -, rfl⟩ | ⟨-, -, rfl⟩
    · exact hstays rfl rfl rfl rfl rfl rfl rfl
    · exact h
  | joinRunner =>
    have hmachine := h.machine
    rcases of_joinRunner hact with ⟨-, -, rfl⟩ | ⟨p, hended, -, rfl⟩ | ⟨hdied, -, -⟩
    · exact h
    · simp only [Console.machine, processor, hended] at hmachine
      exact ⟨⟨h.held, by rintro _ ⟨⟩, h.metronome⟩, by rintro ⟨⟩, h.asked, hmachine⟩
    · exact absurd hdied h.lives
  | joinMetronome =>
    obtain ⟨rfl, -⟩ := of_joinMetronome hact
    exact h.of_same h.held rfl rfl rfl (by rintro ⟨⟩) h.asked rfl
  | spawnRunner | spawnMetronome => exact absurd ha Request.gentle_capture.threads
  | park p =>
    obtain ⟨program, hreset, -⟩ := ha
    cases hreset
  | resetBoard =>
    obtain ⟨p, program, hreset, -⟩ := ha
    cases hreset
  | replaceParked m' => exact absurd ha (Request.not_capture_machines m')
  | createFile | appendFile | readFile => cases ha
  | _ =>
    cases hact
    exact hstays rfl rfl rfl rfl rfl rfl rfl

/-- **What is remembered of it** is that the machine was copied as it is. -/
theorem keeps_of_mem_events (h : c.StillAt m) {a : Action} {x : a.Answer} (ha : a.Bounded Request.capture.bounds)
    (hparked : a = .captureParked → c.runner = .none) (hact : c.act a = some (x, c')) {e : Event}
    (he : e ∈ a.events x) : e.Keeps m := by
  cases a with
  | captureParked =>
    have hmachine := h.machine
    simp only [Console.machine, processor, hparked rfl] at hmachine
    cases hact
    cases List.mem_singleton.mp he
    exact hmachine
  | note n =>
    cases n with
    | previousRunEnded f =>
      cases List.mem_singleton.mp he
      trivial
    | _ => cases he
  | spawnRunner | spawnMetronome => exact absurd ha Request.gentle_capture.threads
  | park p =>
    obtain ⟨program, hreset, -⟩ := ha
    cases hreset
  | resetBoard =>
    obtain ⟨p, program, hreset, -⟩ := ha
    cases hreset
  | replaceParked m' => exact absurd ha (Request.not_capture_machines m')
  | _ => cases he

end StillAt

end Console

/-! ### Scenes -/

/-- The machine stands still at `m`, and since the past was `base` nothing has happened to it. -/
structure Scene.StillAt (base : List Event) (m : Machine) (s : Scene) : Prop where
  console : s.console.StillAt m
  past : ∃ es, s.past = base ++ es ∧ ∀ e ∈ es, e.Keeps m

namespace Scene.StillAt

variable {sc : Scenario} {base es : List Event} {m : Machine} {s : Scene} {c : Console}

theorem append (h : s.StillAt base m) (hc : c.StillAt m) (hes : ∀ e ∈ es, e.Keeps m) :
    StillAt base m ⟨c, s.past ++ es⟩ := by
  obtain ⟨es₀, hpast, hkeeps⟩ := h.past
  refine ⟨hc, es₀ ++ es, by rw [hpast, List.append_assoc], fun e he => ?_⟩
  exact (List.mem_append.mp he).elim (hkeeps e) (hes e)

theorem add (h : s.StillAt base m) {e : Event} (he : e.Keeps m) : (s.add e).StillAt base m :=
  h.append h.console fun _ hmem => List.mem_singleton.mp hmem ▸ he

theorem clocked (h : s.StillAt base m) (t : Turn) : (s.clocked sc t).StillAt base m := by
  cases t with
  | runner due =>
    simp only [Scene.clocked]
    split
    · next r hlive =>
      obtain ⟨hc, hes⟩ := h.console.runnerMove sc hlive due
      exact h.append hc hes
    · exact h
  | metronome due fatal =>
    simp only [Scene.clocked]
    split
    · next μ hlive =>
      obtain ⟨hc, hes⟩ := h.console.metronomeMove { sc with silencingKills := fatal } hlive due
      refine h.append hc ?_
      rw [hes]
      rintro _ ⟨⟩
    · exact h
  | desk | call | refuse | file => exact h

theorem refuses (h : s.StillAt base m) (n : Nat) : StillAt base m ⟨{ s.console with refusal := n }, s.past⟩ :=
  ⟨⟨⟨h.console.held, h.console.runner, h.console.metronome⟩, h.console.lives, h.console.asked, h.console.machine⟩, h.past⟩

theorem filed (h : s.StillAt base m) (f : StateFile) : StillAt base m ⟨{ s.console with file := f }, s.past⟩ :=
  ⟨⟨⟨h.console.held, h.console.runner, h.console.metronome⟩, h.console.lives, h.console.asked, h.console.machine⟩, h.past⟩

theorem died_not_mem (h : s.StillAt base m) (hbase : .died ∉ base) : .died ∉ s.past := by
  obtain ⟨es, hpast, hkeeps⟩ := h.past
  rw [hpast]
  intro hmem
  exact (List.mem_append.mp hmem).elim hbase fun hmem => hkeeps _ hmem

end Scene.StillAt

/-! ### Copies -/

namespace Office

variable {sc : Scenario} {T : Turn → Prop} {o : Office} {turns : List Turn} {answer : Request.Answer} {m : Machine}

theorem Sound.stillAt (h : o.Sound sc T) (hidle : o.task = none) (hdied : .died ∉ o.past) (hstill : o.console.Still) :
    o.toScene.StillAt o.past o.console.machine := by
  obtain ⟨attached, hstands⟩ := h.rests hidle
  refine ⟨⟨hstill, fun hlost => ?_, fun job hmem => ?_, rfl⟩, [], (List.append_nil _).symm, nofun⟩
  · obtain ⟨before, after, hpast, -⟩ := hstands.died hlost
    exact hdied (hpast ▸ List.mem_append_right _ List.mem_cons_self)
  · rw [hstands.jobs] at hmem
    cases hmem

/-- **While somebody waits for a copy** of a machine that stands still, it stands still, and the answer fits. -/
theorem kept_still (hsc : sc.Only Happening.Apart) (h : o.Sound sc T) (hidle : o.task = none)
    (hstill : o.toScene.StillAt o.past m) {s : Scene}
    (hrun : (o.advance sc (.call .capture)).run sc turns = busy s .capture (.done answer))
    (hasks : Request.capture.Asks o.past s.past) :
    s.StillAt o.past m ∧ Request.capture.Meets (deals o.past) answer s := by
  have hcalled : (o.add (.called .capture)).StillAt o.past m :=
    hstill.add trivial
  have hsecures : Request.capture.order.run.Secures sc (Scene.Fits sc .capture) (Request.capture.Meets (deals o.past))
      (o.add (.called .capture)) := by
    obtain ⟨attached, hstands⟩ := h.rests hidle
    exact Order.meets .capture ⟨attached, hstands.add (Event.plain_called .capture)⟩
  have hwithin : Request.capture.order.run.Within (fun _ _ => True) (Action.Bounded Request.capture.bounds)
      fun _ => True :=
    (Order.request_within (fun _ _ => True) .capture).mono (fun _ _ h => h) (fun _ h => h) fun _ _ => trivial
  rw [advance_call sc hidle] at hrun
  have hkept := kept_of_asks
    (I := fun _ s p => s.StillAt o.past m ∧ p.Within (fun _ _ => True) (Action.Bounded Request.capture.bounds)
      (fun _ => True) ∧ ∃ s₁, p.Secures sc (Scene.Fits sc .capture) (Request.capture.Meets (deals o.past)) s₁ ∧
        s₁.Drifts sc s) ?_ ?_ ⟨hcalled, hwithin, _, hsecures, .refl _⟩ ⟨[], rfl, nofun⟩ hrun hasks
  · obtain ⟨hstill', -, s₁, hend, hdrift⟩ := hkept
    cases hend with
    | here hend =>
      obtain ⟨_, ⟨⟩, hmeets⟩ := hend
      exact ⟨hstill', Order.firm_meets.drifts hmeets hdrift⟩
  · rintro turns s p t ⟨hstill, hp, s₁, hsecures, hdrift⟩
    exact ⟨hstill.clocked t, hp, s₁, hsecures, hdrift.clocked hsc t⟩
  · rintro turns s a next x c ⟨hstill, hp, s₁, hsecures, hdrift⟩ hact
    cases hsecures with
    | here hend =>
      obtain ⟨_, ⟨⟩, -⟩ := hend
    | act hfits hnext =>
      have hparked : a = .captureParked → s.console.runner = .none := by
        rintro rfl
        exact (hfits s hdrift).2
      have hkeeps : ∀ e ∈ a.events x, e.Keeps m := fun _ => hstill.console.keeps_of_mem_events hp.1 hparked hact
      refine ⟨hstill.append (hstill.console.act hp.1 hact) hkeeps, hp.2 x trivial, _, hnext s hdrift x c hact, .refl _⟩

theorem answer_of_still {s : Scene} (hdied : .died ∉ o.past) (hstill : s.StillAt o.past m)
    (hmeets : Request.capture.Meets (deals o.past) answer s) (hasks : Request.capture.Asks o.past s.past) :
    answer = .ok (some m) := by
  obtain ⟨during, hpast, hinner⟩ := hasks
  have hsettles : Request.capture.Settles answer (deals during) := hmeets.settles hpast
  cases answer with
  | error e =>
    obtain ⟨rfl, -⟩ := hsettles
    obtain ⟨before, after, hlost, -⟩ := hmeets.perished rfl
    exact absurd (hlost ▸ List.mem_append_right _ List.mem_cons_self) (hstill.died_not_mem hdied)
  | ok x =>
    obtain ⟨who, m', rfl, hdeals⟩ := hsettles
    have hcopied : .copied who m' ∈ during := by
      have hmem : .copied who m' ∈ deals during := hdeals ▸ List.mem_cons_self
      exact (List.mem_filter.mp hmem).1
    obtain ⟨es, hes, hkeeps⟩ := hstill.past
    have hsame : es = .called .capture :: during := List.append_cancel_left (hes.symm.trans hpast)
    have hm : m' = m := hkeeps (.copied who m') (hsame ▸ List.mem_cons_of_mem _ hcopied)
    rw [hm]

/-- **As long as nobody comes** the machine goes on to stand still. -/
theorem run_still (sc : Scenario) {base : List Event} {between : List Turn} (hbetween : ∀ q, .call q ∉ between) {s : Scene}
    (h : s.StillAt base m) :
    ∃ s', ({ toScene := s } : Office).run sc between = { toScene := s' } ∧ s'.StillAt base m := by
  induction between generalizing s with
  | nil => exact ⟨s, rfl, h⟩
  | cons t between ih =>
    have hrest : ∀ q, .call q ∉ between := fun q hmem => hbetween q (List.mem_cons_of_mem t hmem)
    cases t with
    | runner due =>
      rw [run_cons, advance_clock sc rfl]
      exact ih hrest (h.clocked (.runner due))
    | metronome due fatal =>
      rw [run_cons, advance_clock sc rfl]
      exact ih hrest (h.clocked (.metronome due fatal))
    | desk => exact ih hrest h
    | call q => exact absurd List.mem_cons_self (hbetween q)
    | refuse n => exact ih hrest (h.refuses n)
    | file f => exact ih hrest (h.filed f)

/-- **A copy of a machine that stands still** is the machine, and it goes on to stand still as long as nobody comes. -/
theorem copy_of_still (hsc : sc.Only Happening.Apart) (h : o.Sound sc T) (hidle : o.task = none)
    (hdied : .died ∉ o.past) (hstill : o.toScene.StillAt o.past m) (hanswers : o.Answers sc .capture turns answer)
    {between : List Turn} (hbetween : ∀ q, .call q ∉ between) :
    answer = .ok (some m) ∧ (o.run sc (.call .capture :: turns ++ .desk :: between)).task = none ∧
      (o.run sc (.call .capture :: turns ++ .desk :: between)).console.StillAt m ∧
      .died ∉ (o.run sc (.call .capture :: turns ++ .desk :: between)).past := by
  obtain ⟨s, hrun, hasks⟩ := hanswers
  obtain ⟨hstill', hmeets⟩ := kept_still hsc h hidle hstill hrun hasks
  -- the desk gives the answer, and from then on only the clocks move
  have hgiven : (s.add (.answered .capture answer)).StillAt o.past m := hstill'.add trivial
  obtain ⟨s', hrun', hs'⟩ := run_still sc hbetween hgiven
  have hall : o.run sc (.call .capture :: turns ++ .desk :: between) = { toScene := s' } := by
    rw [List.cons_append, run_cons, run_append, hrun, run_cons]
    exact hrun'
  rw [hall]
  exact ⟨answer_of_still hdied hstill' hmeets hasks, rfl, hs'.console, hs'.died_not_mem hdied⟩

end Office

end ChipEight
