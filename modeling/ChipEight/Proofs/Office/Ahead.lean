import ChipEight.Proofs.Office.Beside
import ChipEight.Proofs.Office.Stopped

/-!
# A run that one desk has joined and the other has not

A run has ended.  One desk joins its clocks (`halt`), the other does not, and as soon as that makes a difference it does
so too.  Until then both desks do the same.

* `Console.Parting` : the first desk is about to join the clocks.
* `Console.Ahead` : it has done so.
* `Procedure.Quietly` : actions of the desk that nobody remembers.
* `Procedure.Sheds` : a procedure joins an ended run before that makes a difference.
* `Order.sheds_order` : every order does.
-/

namespace ChipEight

open Procedure (single)

/-! ### Consoles -/

/-- A run has ended, and both consoles are the same but for that: the desk of the second has not joined its clocks.  To
the first desk this much is left: the run as such, its runner, its metronome, its fault. -/
inductive Console.Parting (run runner metronome fault : Bool) (c : Console) : Console → Prop
  | intro {p parked : Processor} {μ : Thread Metronome Unit} {pending : Option Fault} {mail : Mailbox}
    {file : StateFile} {journal : Journal} (akin : c.file.Akin file) (quiet : c.mail.Quiet) (quiet' : mail.Quiet)
    (mode : c.board.mode = .stopped) (attached : c.desk.attached = run)
    (seat : if runner then c.runner = .ended p ∧ c.desk.parked = parked else c.runner = .none ∧ c.desk.parked = p)
    (beat : if metronome then c.metronome = μ else c.metronome = .none ∧ ∀ m, μ ≠ .live m)
    (kept : c.desk.pending = if fault then pending else c.board.fault.or pending) :
    Parting run runner metronome fault c { c with
      runner := .ended p
      metronome := μ
      desk := { c.desk with attached := true, parked, pending }
      mail
      file
      journal }

/-- A run has ended.  The desk of the first console has joined its clocks, that of the second has not. -/
abbrev Console.Ahead (c d : Console) : Prop := c.Parting false false false false d

namespace Console.Parting

variable {c d : Console} {run runner metronome fault : Bool}

theorem of_level (h : c.Level d) {p : Processor} (hended : c.runner = .ended p) (hmode : c.board.mode = .stopped)
    (hattached : c.desk.attached = true) : c.Parting true true true true d := by
  obtain ⟨⟨mail, file, journal, rfl, hakin⟩, hquiet, hquiet'⟩ := h
  have hsame : ({ c with mail, file, journal } : Console) = { c with
      runner := .ended p
      metronome := c.metronome
      desk := { c.desk with attached := true, parked := c.desk.parked, pending := c.desk.pending }
      mail
      file
      journal } := by
    rw [← hended, ← hattached]
  rw [hsame]
  exact .intro hakin hquiet hquiet' hmode hattached ⟨hended, rfl⟩ rfl rfl

theorem board_eq (h : c.Parting run runner metronome fault d) : d.board = c.board := by
  cases h
  rfl

theorem tally_eq (h : c.Parting run runner metronome fault d) : d.tally = c.tally := by
  cases h
  rfl

theorem mode_eq (h : c.Parting run runner metronome fault d) : c.board.mode = .stopped := by
  cases h
  assumption

theorem attached_eq (h : c.Parting run runner metronome fault d) : c.desk.attached = run := by
  cases h
  assumption

theorem attached_eq' (h : c.Parting run runner metronome fault d) : d.desk.attached = true := by
  cases h
  rfl

theorem refuses (h : c.Parting run runner metronome fault d) (n : Nat) :
    { c with refusal := n }.Parting run runner metronome fault { d with refusal := n } := by
  obtain ⟨akin, quiet, quiet', mode, attached, seat, beat, kept⟩ := h
  exact .intro akin quiet quiet' mode attached seat beat kept

theorem filed (h : c.Parting run runner metronome fault d) (f : StateFile) :
    { c with file := f }.Parting run runner metronome fault { d with file := f } := by
  obtain ⟨-, quiet, quiet', mode, attached, seat, beat, kept⟩ := h
  exact .intro (.refl f) quiet quiet' mode attached seat beat kept

theorem gone (h : c.Parting run runner metronome fault d) (r : Runner) : c.runner ≠ .live r := by
  obtain ⟨-, -, -, -, -, seat, -, -⟩ := h
  cases runner with
  | false =>
    rw [seat.1]
    nofun
  | true =>
    rw [seat.1]
    nofun

end Console.Parting

/-- It makes no difference to this action whether an ended run was joined. -/
def Action.Calm : Action → Prop
  | .readMode | .setMode .stopped | .readRate | .setRate _ | .readFile | .statePath | .note _ => True
  | _ => False

theorem Action.Calm.plain {a : Action} (h : a.Calm) : a.Plain := by
  cases a with
  | post | collect => exact h
  | _ => trivial

/-- A calm action is done by both desks, with the same answer. -/
theorem Console.Ahead.calm {c d : Console} (h : c.Ahead d) {a : Action} (ha : a.Calm)
    (hread : a = .readFile → d.file = c.file) :
    ∃ x c' d', c.act a = some (x, c') ∧ d.act a = some (x, d') ∧ a.ReadsStopped x ∧ c'.Ahead d' ∧ c'.file = c.file ∧
      d'.file = d.file := by
  obtain ⟨akin, quiet, quiet', mode, attached, seat, beat, kept⟩ := h
  cases a with
  | readMode => exact ⟨_, _, _, rfl, rfl, mode, .intro akin quiet quiet' mode attached seat beat kept, rfl, rfl⟩
  | setMode s =>
    cases s with
    | stopped => exact ⟨_, _, _, rfl, rfl, trivial, .intro akin quiet quiet' rfl attached seat beat kept, rfl, rfl⟩
    | running | paused => exact ha.elim
  | readFile =>
    have hsame := hread rfl
    dsimp only at hsame
    subst hsame
    exact ⟨_, _, _, rfl, rfl, trivial, .intro akin quiet quiet' mode attached seat beat kept, rfl, rfl⟩
  | readRate | setRate | statePath | note =>
    exact ⟨_, _, _, rfl, rfl, trivial, .intro akin quiet quiet' mode attached seat beat kept, rfl, rfl⟩
  | _ => exact ha.elim

/-! ### Turns of the clocks -/

namespace Scene

variable {sc : Scenario} {s v : Scene} {run runner metronome fault : Bool}

theorem parting_metronomeMove {c d : Console} (h : c.Parting run runner true fault d) (due : Bool) (m : Metronome) :
    (c.metronomeMove sc due m).Parting run runner true fault (d.metronomeMove sc due m) := by
  obtain ⟨akin, quiet, quiet', mode, attached, seat, beat, kept⟩ := h
  cases m with
  | looking =>
    simp only [Console.metronomeMove, mode]
    exact .intro akin quiet quiet' mode attached seat rfl kept
  | ticking => exact .intro akin quiet quiet' mode attached seat rfl kept
  | silencing | leaving => exact .intro akin quiet quiet' mode attached seat rfl kept

/-- **A turn of a clock** while the first desk joins them. -/
theorem parting_clocked (h : s.console.Parting run runner metronome fault v.console) (t : Turn) :
    (s.clocked sc t).console.Parting run runner metronome fault (v.clocked sc t).console ∧
      Alike s v (s.clocked sc t) (v.clocked sc t) := by
  cases t with
  | runner due =>
    have hstays : s.clocked sc (.runner due) = s := by
      simp only [clocked]
      cases hrunner : s.console.runner with
      | live r => exact absurd hrunner (h.gone r)
      | none | ended | died => rfl
    have hstays' : v.clocked sc (.runner due) = v := by
      have hended : ∃ p, v.console.runner = .ended p := by
        generalize v.console = d at h
        cases h
        exact ⟨_, rfl⟩
      obtain ⟨p, hended⟩ := hended
      simp only [clocked, hended]
    rw [hstays, hstays']
    exact ⟨h, .refl s v⟩
  | metronome due fatal =>
    cases metronome with
    | true =>
      have hsame : v.console.metronome = s.console.metronome := by
        generalize v.console = d at h
        obtain ⟨-, -, -, -, -, -, beat, -⟩ := h
        exact beat.symm
      simp only [clocked, hsame]
      cases s.console.metronome with
      | live m => exact ⟨parting_metronomeMove h due m, m.events, rfl, rfl⟩
      | none | ended | died => exact ⟨h, .refl s v⟩
    | false =>
      have hgone : s.console.metronome = .none ∧ ∀ m, v.console.metronome ≠ .live m := by
        generalize v.console = d at h
        obtain ⟨-, -, -, -, -, -, beat, -⟩ := h
        exact beat
      have hstays : s.clocked sc (.metronome due fatal) = s := by simp only [clocked, hgone.1]
      have hstays' : v.clocked sc (.metronome due fatal) = v := by
        simp only [clocked]
        cases hmetronome : v.console.metronome with
        | live m => exact absurd hmetronome (hgone.2 m)
        | none | ended | died => rfl
      rw [hstays, hstays']
      exact ⟨h, .refl s v⟩
  | desk | call | refuse | file => exact ⟨h, .refl s v⟩

end Scene

/-! ### Actions that nobody remembers -/

namespace Procedure

variable {α β : Type}

/-- From the first procedure and console the desk comes to the second ones by actions that nobody remembers. -/
inductive Quietly : Procedure α → Console → Procedure α → Console → Prop
  | refl {p c} : Quietly p c p c
  | step {a : Action} {next : a.Answer → Procedure α} {c x c' p d} (hact : c.act a = some (x, c'))
    (hevents : a.events x = []) (rest : Quietly (next x) c' p d) : Quietly (.act a next) c p d

namespace Quietly

variable {p p' : Procedure α} {c c' : Console}

theorem bind (h : p.Quietly c p' c') (f : α → Procedure β) : (p >>= f).Quietly c (p' >>= f) c' := by
  induction h with
  | refl => exact .refl
  | step hact hevents _ ih => exact .step hact hevents ih

end Quietly

end Procedure

theorem Office.run_quietly (sc : Scenario) {p p' : Procedure Request.Answer} {c c' : Console} (h : p.Quietly c p' c')
    (q : Request) (past : List Event) :
    ∃ n, (busy ⟨c, past⟩ q p).run sc (.replicate n .desk) = busy ⟨c', past⟩ q p' := by
  induction h with
  | refl => exact ⟨0, rfl⟩
  | @step a next c x c' p d hact hevents rest ih =>
    obtain ⟨n, hrun⟩ := ih
    refine ⟨n + 1, ?_⟩
    rw [List.replicate_succ, run_cons, advance_act sc (s := ⟨c, past⟩) hact q next, Scene.did_of_quiet hevents]
    exact hrun

/-! ### To join the run after all -/

/-- The console when the desk has joined a run that has left the processor `p`. -/
def Console.joined (c : Console) (p : Processor) (journal : Journal) : Console :=
  { c with
    runner := .none
    metronome := .none
    desk := { c.desk with attached := false, parked := p, pending := c.board.fault.or c.desk.pending }
    journal }

/-- A console that has joined the run late is level with one that has done so before. -/
theorem Console.Ahead.level_joined {c d : Console} (h : c.Ahead d) :
    ∃ p, d.runner = .ended p ∧ (∀ m, d.metronome ≠ .live m) ∧ d.desk.attached = true ∧
      ∀ journal, c.Level (d.joined p journal) := by
  obtain @⟨p, parked, μ, pending, mail, file, journal', akin, quiet, quiet', -, attached, ⟨hrunner, hparked⟩,
    ⟨hmetronome, hover⟩, kept⟩ := h
  refine ⟨p, rfl, hover, rfl, fun journal => ⟨⟨mail, file, journal, ?_, akin⟩, quiet, quiet'⟩⟩
  obtain ⟨board, tally, _, runner, metronome, ⟨settings, _, _, _⟩, _, refusal, _⟩ := c
  dsimp only at hrunner hparked hmetronome attached kept
  subst hrunner hparked hmetronome attached
  simp only [Console.joined]
  rw [kept]
  rfl

namespace Procedure

variable {α β : Type}

/-- The desk of the second console comes to where that of the first is, and the consoles are level. -/
def Joins (p p' : Procedure α) : Prop :=
  ∀ c d : Console, c.Ahead d → ∃ d', p.Quietly d p' d' ∧ c.Level d' ∧ d'.file = d.file

/-- It makes no difference that one desk has joined the run and the other has not, until that one joins it; if it does
not, the result is among `Q`. -/
inductive Sheds (Q : α → Prop) : Procedure α → Prop
  | done {r : α} (h : Q r) : Sheds Q (.done r)
  | calm {a : Action} {next : a.Answer → Procedure α} (ha : a.Calm) (h : ∀ x, a.ReadsStopped x → Sheds Q (next x)) :
    Sheds Q (.act a next)
  | asks {next : Bool → Procedure α} (h : ∀ c d : Console, c.Ahead d → (next true).Quietly d (next false) d)
    (hrest : Sheds Q (next false)) : Sheds Q (.act .isAttached next)
  | joins {next : Bool → Procedure α} (h : (next true).Joins (next false)) : Sheds Q (.act .isAttached next)

theorem Joins.bind {p p' : Procedure α} (h : p.Joins p') (f : α → Procedure β) : (p >>= f).Joins (p' >>= f) := by
  intro c d hahead
  obtain ⟨d', hquietly, hlevel⟩ := h c d hahead
  exact ⟨d', hquietly.bind f, hlevel⟩

namespace Sheds

variable {P : α → Prop} {Q : β → Prop}

theorem bind {p : Procedure α} {f : α → Procedure β} (h : p.Sheds P) (hf : ∀ r, P r → (f r).Sheds Q) :
    (p >>= f).Sheds Q := by
  induction h with
  | done h => exact hf _ h
  | calm ha _ ih => exact .calm ha ih
  | asks h _ ih => exact .asks (fun c d hahead => (h c d hahead).bind f) ih
  | joins h => exact .joins (h.bind f)

theorem andThen {o : Order.Op α} {f : α → Order.Op β} {P : Except DeskError α → Prop} {Q : Except DeskError β → Prop}
    (h : o.run.Sheds P) (hok : ∀ r, P (.ok r) → (f r).run.Sheds Q) (herror : ∀ e, P (.error e) → Q (.error e)) :
    (o >>= f).run.Sheds Q := by
  apply Sheds.bind (p := o.run) h
  intro r hr
  cases r with
  | ok r => exact hok r hr
  | error e => exact .done (herror e hr)

theorem lift {p : Procedure α} {f : α → Order.Op β} {Q : Except DeskError β → Prop} (h : p.Sheds P)
    (hf : ∀ r, P r → (f r).run.Sheds Q) : ((liftM p : Order.Op α) >>= f).run.Sheds Q := by
  apply Sheds.bind (p := (liftM p : Order.Op α).run) (P := fun r => ∃ x, r = .ok x ∧ P x)
  · exact Sheds.bind (p := p) h fun r hr => .done ⟨r, rfl, hr⟩
  · rintro _ ⟨x, rfl, hx⟩
    exact hf x hx

end Sheds

end Procedure

namespace Order

open Procedure (Sheds)

variable {α : Type}

/-- To close a run takes its fault off the board. -/
theorem quietly_closeRun (c : Console) :
    ∃ journal, (closeRun true).run.Quietly c (.done (.ok ()))
      { c with desk := { c.desk with pending := c.board.fault.or c.desk.pending }, journal } := by
  obtain ⟨board, tally, mail, runner, metronome, desk, file, refusal, journal⟩ := c
  refine ⟨journal.add .desk .stopped, ?_⟩
  cases hfault : board.fault with
  | none =>
    refine .step rfl rfl ?_
    dsimp only
    rw [hfault]
    exact .step rfl rfl .refl
  | some f =>
    refine .step rfl rfl ?_
    dsimp only
    rw [hfault]
    exact .step rfl rfl (.step rfl rfl .refl)

/-- To end a run that has ended on its own. -/
theorem quietly_endRun : ∃ next : Bool → Procedure (Except DeskError Unit),
    endRun.run = .act (.setMode .stopped) (fun _ => .act .isAttached next) ∧ next false = .done (.ok ()) ∧
      ∀ {c : Console} {p : Processor}, c.runner = .ended p → (∀ m, c.metronome ≠ .live m) →
        ∃ journal, (next true).Quietly c (next false) (c.joined p journal) := by
  refine ⟨_, rfl, rfl, ?_⟩
  rintro ⟨board, tally, mail, _, metronome, desk, file, refusal, journal⟩ p rfl hover
  cases metronome with
  | live m => exact absurd rfl (hover m)
  | none | ended =>
    obtain ⟨journal', hclose⟩ := quietly_closeRun
      { board, tally, mail, desk := { desk with attached := false, parked := p }, file, refusal, journal }
    exact ⟨journal', .step rfl rfl (.step rfl rfl (.step rfl rfl hclose))⟩
  | died =>
    obtain ⟨journal', hclose⟩ := quietly_closeRun
      { board, tally, mail, desk := { desk with attached := false, parked := p }, file, refusal
        journal := journal.add .desk .metronomeDied }
    exact ⟨journal', .step rfl rfl (.step rfl rfl (.step rfl rfl (.step rfl rfl hclose)))⟩

/-- To end a run that has ended on its own makes up for what the other desk has done before. -/
theorem joins_endRun : endRun.run.Joins (.done (.ok ())) := by
  intro c d h
  obtain ⟨next, horder, hdone, hquietly⟩ := quietly_endRun
  obtain ⟨p, hended, hover, hattached, hlevel⟩ := h.level_joined
  obtain ⟨journal, hrest⟩ := hquietly hended hover
  have hset : d.act (.setMode .stopped) = some ((), d) := by
    have hmode : d.board.mode = .stopped := by rw [h.board_eq, h.mode_eq]
    simp only [Console.act, ← hmode]
  have hasked : d.act .isAttached = some (true, d) := by
    simp only [Console.act, hattached]
  refine ⟨d.joined p journal, ?_, hlevel journal, rfl⟩
  rw [horder, ← hdone]
  exact .step hset rfl (.step hasked rfl hrest)

theorem sheds_endRun : endRun.run.Sheds fun _ => False := by
  obtain ⟨next, horder, hdone, hquietly⟩ := quietly_endRun
  rw [horder]
  refine .calm trivial fun _ _ => .joins ?_
  intro c d h
  obtain ⟨p, hended, hover, -, hlevel⟩ := h.level_joined
  obtain ⟨journal, hrest⟩ := hquietly hended hover
  exact ⟨d.joined p journal, hrest, hlevel journal, rfl⟩

theorem sheds_alone (o : Op α) {Q : Except DeskError α → Prop} :
    (do if ← single .isAttached then endRun
        o : Op α).run.Sheds Q :=
  .joins (joins_endRun.bind _)

theorem sheds_ask (j : Job) : (ask j).Sheds (· = none) := by
  refine .asks ?_ (.done rfl)
  rintro c _ ⟨⟩
  exact .step rfl rfl .refl

theorem sheds_start : start.run.Sheds fun _ => True := by
  refine .joins ?_
  intro c d h
  obtain ⟨d', hquietly, hlevel⟩ := joins_endRun.bind (ExceptT.bindCont fun _ => takeUp) c d h
  refine ⟨d', ?_, hlevel⟩
  have hread : d.act .readMode = some (.stopped, d) := by
    have hmode : d.board.mode = .stopped := by rw [h.board_eq, h.mode_eq]
    simp only [Console.act, hmode]
  exact .step hread rfl hquietly

theorem sheds_reset (program : List UInt8) : (reset program).run.Sheds fun _ => True := by
  unfold reset
  cases Processor.withProgram? program with
  | none => exact .done trivial
  | some p => exact Sheds.lift (p := endRun.run) sheds_endRun fun _ h => h.elim

theorem sheds_stop : stop.run.Sheds fun _ => True :=
  Sheds.andThen sheds_endRun (fun _ h => h.elim) fun _ h => h.elim

theorem sheds_pause : pause.Sheds fun _ => True := by
  refine .calm trivial ?_
  rintro _ rfl
  exact .done trivial

theorem sheds_resume : resume.Sheds fun _ => True := by
  refine .calm trivial ?_
  rintro _ rfl
  exact .done trivial

theorem sheds_capture {Q : Except DeskError Machine → Prop} : capture.run.Sheds Q := by
  refine Sheds.lift (sheds_ask .capture) ?_
  rintro _ rfl
  exact sheds_alone _

theorem sheds_restore (m : Machine) {Q : Except DeskError Unit → Prop} : (restore m).run.Sheds Q := by
  refine .calm trivial ?_
  rintro _ rfl
  refine Sheds.lift (sheds_ask (.restore m)) ?_
  rintro _ rfl
  exact sheds_alone _

theorem sheds_save : save.run.Sheds fun _ => True :=
  Sheds.andThen (P := fun _ => False) sheds_capture (fun _ h => h.elim) fun _ h => h.elim

theorem sheds_unpack (bytes : List UInt8) : (unpack bytes).run.Sheds fun _ => True := by
  unfold unpack
  cases Image.decode bytes with
  | error d => exact .done trivial
  | ok m => exact Sheds.andThen (P := fun _ => False) (sheds_restore m) (fun _ h => h.elim) fun _ h => h.elim

theorem sheds_load : load.run.Sheds fun _ => True := by
  refine .calm trivial ?_
  rintro _ rfl
  refine .calm trivial ?_
  rintro (e | bytes) -
  · exact .done trivial
  · exact sheds_unpack bytes

theorem sheds_setRate (hz : UInt32) : (setRate hz).Sheds fun _ => True :=
  .calm trivial fun _ _ => .calm trivial fun _ _ => .calm trivial fun _ _ => .done trivial

/-- **Every request** joins an ended run before it makes a difference that it was not joined. -/
theorem sheds_order (q : Request) : q.order.run.Sheds fun _ => True := by
  have hnone {o : Op Unit} (h : o.run.Sheds fun _ => True) :
      (do o; return none : Op (Option Machine)).run.Sheds fun _ => True :=
    Sheds.andThen h (fun _ _ => .done trivial) fun _ _ => trivial
  have hlift {p : Procedure Unit} (h : p.Sheds fun _ => True) :
      (do p; return none : Op (Option Machine)).run.Sheds fun _ => True :=
    Sheds.lift h fun _ _ => .done trivial
  cases q with
  | reset program => exact hnone (sheds_reset program)
  | start => exact hnone sheds_start
  | stop => exact hnone sheds_stop
  | pause => exact hlift sheds_pause
  | resume => exact hlift sheds_resume
  | capture => exact Sheds.andThen (P := fun _ => False) sheds_capture (fun _ h => h.elim) fun _ h => h.elim
  | restore m => exact hnone (sheds_restore m)
  | save => exact hnone sheds_save
  | load => exact hnone sheds_load
  | setRate hz => exact hlift (sheds_setRate hz)

end Order

end ChipEight
