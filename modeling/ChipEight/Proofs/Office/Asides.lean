import ChipEight.Proofs.Office.Lockstep
import ChipEight.Proofs.Office.Recovery

/-!
# Copies beside the point

Somebody asks one of two desks for a copy (`snapshot`, `save_state`), and the other for nothing.  When the copy is made
the two consoles still cannot be told apart, if the run that one of them may have ended for it had ended and looked so.

* `Console.RunConsistent` : a run that has ended looks stopped, and no runner has died.
* `Scene.Steady` : what the clocks keep between a console and another that sits out the moves that hand out a copy.
* `Procedure.Outlines` : a procedure for the first desk, with what holds between the consoles before each action.
* `Order.outlines_capture`, `Order.outlines_save` : what a copy leaves.
* `Office.Concludes.outlines` : the second office while the first is at a request.
-/

namespace ChipEight

open Procedure (single)

/-! ### What is remembered of a copy -/

/-- It is about the run, and neither about a request nor about a copy. -/
def Event.remains : Event → Bool
  | .called _ | .answered .. | .copied .. => false
  | _ => true

/-- Since then the same has happened in both scenes, but for requests and copies in the first. -/
def Scene.Echoed (s v s' v' : Scene) : Prop :=
  ∃ es, s'.past = s.past ++ es ∧ v'.past = v.past ++ es.filter Event.remains

namespace Scene.Echoed

variable {s s' s'' v v' v'' : Scene}

theorem refl (s v : Scene) : Echoed s v s v := ⟨[], (List.append_nil _).symm, (List.append_nil _).symm⟩

theorem trans (h : Echoed s v s' v') (h' : Echoed s' v' s'' v'') : Echoed s v s'' v'' := by
  obtain ⟨es, hes, hes'⟩ := h
  obtain ⟨fs, hfs, hfs'⟩ := h'
  refine ⟨es ++ fs, by rw [hfs, hes, List.append_assoc], ?_⟩
  rw [hfs', hes', List.filter_append, List.append_assoc]

theorem add (h : Echoed s v s' v') {c : Console} {es : List Event} (hes : es.filter Event.remains = []) :
    Echoed s v ⟨c, s'.past ++ es⟩ v' :=
  h.trans ⟨es, rfl, by rw [hes, List.append_nil]⟩

end Scene.Echoed

theorem Runner.remains_of_mem_events {r : Runner} {c c' : Console} (hjobs : r.stage = .serving → c.mail.jobs = []) :
    ∀ e ∈ r.events c c', e.remains = true := by
  unfold events
  cases hstage : r.stage with
  | serving => simp [hjobs hstage]
  | batch left =>
    cases left with
    | zero => simp
    | succ left =>
      dsimp only
      split <;> simp [Event.remains]
  | failing f => simp [Event.remains]
  | looking | sizing | waiting | leaving => simp

theorem Scene.remains_clocked (sc : Scenario) {s : Scene} {t : Turn}
    (hjobs : ∀ r due, t = .runner due → s.console.runner = .live r → r.stage = .serving → s.console.mail.jobs = []) :
    ∃ es, (s.clocked sc t).past = s.past ++ es ∧ es.filter Event.remains = es := by
  have hstays : ∃ es, s.past = s.past ++ es ∧ es.filter Event.remains = es := ⟨[], (List.append_nil _).symm, rfl⟩
  cases t with
  | runner due =>
    simp only [clocked]
    split
    · next r hlive => exact ⟨_, rfl, List.filter_eq_self.mpr (Runner.remains_of_mem_events (hjobs r due rfl hlive))⟩
    · exact hstays
  | metronome due fatal =>
    simp only [clocked]
    split
    · next m hlive =>
      refine ⟨_, rfl, ?_⟩
      cases m <;> rfl
    · exact hstays
  | desk | call | refuse | file => exact hstays

/-! ### Runs that look as they are -/

/-- Where the run state is not `stopped` a runner is at work, the desk knows of every runner, and none has died. -/
structure Console.RunConsistent (c : Console) : Prop where
  works : c.WorksUnlessStopped
  attached : c.desk.attached = c.runner.here
  lives : c.runner ≠ .died

/-- A move of a clock leaves it so, unless the runner dies. -/
theorem Console.RunConsistent.moves {sc : Scenario} {c c' : Console} {es : List Event} (h : c.RunConsistent)
    (hmoves : c.Moves sc c' es) : .died ∈ es ∨ c'.RunConsistent := by
  by_cases hdied : .died ∈ es
  · exact .inl hdied
  refine .inr ⟨?_, ?_, fun hgone => ?_⟩
  · cases hmoves with
    | pass hlive hstage stage journal hstops => exact fun hmode => ⟨_, rfl, fun hleaves => hmode (hstops hleaves)⟩
    | copy hlive => exact h.works
    | install hlive hstage => exact fun _ => ⟨_, rfl, hstage⟩
    | step hlive hstage stage mode rate journal hmode hstays => exact fun _ => ⟨_, rfl, hstays⟩
    | die => exact absurd (by simp) hdied
    | fail => exact fun hmode => absurd rfl hmode
    | leave hlive hstage =>
      intro hmode
      obtain ⟨r, hlive', hworks⟩ := h.works hmode
      rw [hlive] at hlive'
      cases hlive'
      exact absurd hstage hworks
    | tick | hush => exact h.works
  · rw [hmoves.desk_eq, hmoves.runner_here]
    exact h.attached
  · rcases hmoves.died_of_died hgone with hgone | ⟨-, rfl⟩
    · exact h.lives hgone
    · exact hdied (by simp)

theorem Scene.runConsistent_clocked {sc : Scenario} {s : Scene} (hsc : sc.Only Happening.Apart)
    (h : s.console.RunConsistent) {t : Turn} (hdied : .died ∉ (s.clocked sc t).past) : (s.clocked sc t).console.RunConsistent := by
  have hdrift : s.Drifts sc (s.clocked sc t) := (Drifts.refl s).clocked hsc t
  have hall : .died ∈ (s.clocked sc t).past ∨ (s.clocked sc t).console.RunConsistent := by
    refine hdrift.induct (P := fun s' => .died ∈ s'.past ∨ s'.console.RunConsistent) (fun h hmoves => ?_) (.inr h)
    rcases h with hdied | h
    · exact .inl (List.mem_append_left _ hdied)
    · exact (h.moves hmoves).imp (List.mem_append_right _) id
  exact hall.resolve_left hdied

/-- Nobody can tell the consoles apart, and in the first a run that has ended looks so. -/
structure Console.OnPar (c d : Console) : Prop where
  levelOrAhead : c.LevelOrAhead d
  consistent : c.RunConsistent

/-! ### What the clocks keep between two offices -/

/-- In this turn the runner hands out a copy. -/
def Console.handsOut (c : Console) : Turn → Bool
  | .runner _ =>
    match c.runner, c.mail.jobs with
    | .live r, (_, .capture) :: _ => r.stage == .serving
    | _, _ => false
  | _ => false

/-- A runner that finds no job hands out nothing. -/
theorem Console.handsOut_eq_false {c : Console} {t : Turn}
    (hjobs : ∀ r due, t = .runner due → c.runner = .live r → r.stage = .serving → c.mail.jobs = []) :
    c.handsOut t = false := by
  cases t with
  | runner due =>
    simp only [handsOut]
    split
    · next r ticket jobs hlive hsent =>
      by_contra hserves
      have hstage : r.stage = .serving := by simpa using hserves
      rw [hjobs r due rfl hlive hstage] at hsent
      cases hsent
    · rfl
  | metronome | desk | call | refuse | file => rfl

namespace Scene

variable {sc : Scenario} {R : Scene → Console → Prop} {s v : Scene}

/-- The second scene after the turn of a clock, which it sits out if the first runner hands out a copy in it. -/
def sitting (sc : Scenario) (s v : Scene) (t : Turn) : Scene := if s.console.handsOut t then v else v.clocked sc t

theorem sitting_of_no_job (sc : Scenario) (v : Scene) {t : Turn}
    (hjobs : ∀ r due, t = .runner due → s.console.runner = .live r → r.stage = .serving → s.console.mail.jobs = []) :
    sitting sc s v t = v.clocked sc t := by
  simp [sitting, Console.handsOut_eq_false hjobs]

/-- The clocks keep `R` between a scene and the console of another, in which the copies are sat out, and the same happens
in both. -/
def Steady (sc : Scenario) (R : Scene → Console → Prop) : Prop :=
  ∀ (s v : Scene) (t : Turn), R s v.console → .died ∉ (s.clocked sc t).past →
    R (s.clocked sc t) (sitting sc s v t).console ∧ Echoed s v (s.clocked sc t) (sitting sc s v t)

theorem Steady.and {P : Scene → Prop} (hsc : sc.Only Happening.Apart) (h : Steady sc R)
    (hP : ∀ {s c es}, P s → s.console.Moves sc c es → P ⟨c, s.past ++ es⟩) : Steady sc fun s d => R s d ∧ P s := by
  rintro s v t ⟨hR, hs⟩ hdied
  obtain ⟨hR', hechoed⟩ := h s v t hR hdied
  have hdrift : s.Drifts sc (s.clocked sc t) := (Drifts.refl s).clocked hsc t
  exact ⟨⟨hR', hdrift.induct hP hs⟩, hechoed⟩

theorem Steady.known (h : Steady sc R) (p : Prop) : Steady sc fun s d => p ∧ R s d := by
  rintro s v t ⟨hp, hR⟩ hdied
  obtain ⟨hR', hechoed⟩ := h s v t hR hdied
  exact ⟨⟨hp, hR'⟩, hechoed⟩

theorem Alike.echoed {s' v' : Scene} (h : Alike s v s' v')
    (hremains : ∃ es, s'.past = s.past ++ es ∧ es.filter Event.remains = es) : Echoed s v s' v' := by
  obtain ⟨es, hes, hes'⟩ := h
  obtain ⟨fs, hfs, hfilter⟩ := hremains
  obtain rfl : es = fs := List.append_cancel_left (hes.symm.trans hfs)
  exact ⟨es, hes, by rw [hfilter]; exact hes'⟩

theorem steady_onPar (hsc : sc.Only Happening.Apart) : Steady sc fun s d => s.console.OnPar d := by
  rintro s v t ⟨heither, hconsistent⟩ hdied
  obtain ⟨heither', halike⟩ := levelOrAhead_clocked hsc heither t
  have hjobs (r : Runner) (due : Bool) (_ : t = .runner due) (hlive : s.console.runner = .live r)
      (_ : r.stage = .serving) : s.console.mail.jobs = [] := by
    rcases heither with hlevel | hahead
    · exact hlevel.quiet.1
    · exact absurd hlive (hahead.gone r)
  rw [sitting_of_no_job sc v hjobs]
  exact ⟨⟨heither', runConsistent_clocked hsc hconsistent hdied⟩, halike.echoed (remains_clocked sc hjobs)⟩

theorem steady_parting (sc : Scenario) {run runner metronome fault : Bool} :
    Steady sc fun s d => s.console.Parting run runner metronome fault d := by
  intro s v t h _
  obtain ⟨h', halike⟩ := parting_clocked h t
  have hjobs (r : Runner) (due : Bool) (_ : t = .runner due) (hlive : s.console.runner = .live r)
      (_ : r.stage = .serving) : s.console.mail.jobs = [] := absurd hlive (h.gone r)
  rw [sitting_of_no_job sc v hjobs]
  exact ⟨h', halike.echoed (remains_clocked sc hjobs)⟩

/-- The first desk waits for a copy, and the second for nothing. -/
structure Sent (ticket : Nat) (s : Scene) (d : Console) : Prop where
  beside : s.console.Beside d
  quiet : d.mail.Quiet
  consistent : s.console.RunConsistent
  attached : s.console.desk.attached = true
  flight : ∃ ds, Order.InFlight ds ticket .capture s

theorem steady_sent (hsc : sc.Only Happening.Apart) (ticket : Nat) : Steady sc (Sent ticket) := by
  rintro s v t ⟨hbeside, hquiet, hconsistent, hattached, ds, hflight⟩ hdied
  have hdrift : s.Drifts sc (s.clocked sc t) := (Drifts.refl s).clocked hsc t
  have hflight' : Order.InFlight ds ticket .capture (s.clocked sc t) := hdrift.induct Order.InFlight.moves hflight
  have hconsistent' : (s.clocked sc t).console.RunConsistent := runConsistent_clocked hsc hconsistent hdied
  have hattached' : (s.clocked sc t).console.desk.attached = true :=
    hdrift.induct (P := fun s => s.console.desk.attached = true)
      (fun h hmoves => (congrArg Desk.attached hmoves.desk_eq).trans h) hattached
  by_cases hserves : ∃ r due, s.console.runner = .live r ∧ r.stage = .serving ∧ s.console.mail.jobs ≠ [] ∧ t = .runner due
  -- the second office sits the copy out
  · obtain ⟨r, due, hlive, hstage, hjobs, rfl⟩ := hserves
    have hmail : s.console.mail.jobs = [(ticket, .capture)] := by
      cases hflight with
      | waiting _ hjobs' => exact hjobs'
      | done _ hjobs' => exact absurd hjobs' hjobs
      | lost _ hjobs' => exact absurd hjobs' hjobs
    have hserved : s.clocked sc (.runner due) =
        ⟨s.console.serve r, s.past ++ [.copied .runner (s.console.board.machine r.processor)]⟩ := by
      simp only [clocked, hlive, Console.runnerMove, Runner.events, hstage, hmail]
    have hsits : sitting sc s v (.runner due) = v := by
      simp [sitting, Console.handsOut, hlive, hmail, hstage]
    rw [hsits]
    refine ⟨⟨?_, hquiet, hconsistent', hattached', ds, hflight'⟩, ?_⟩
    · rw [hserved]
      obtain ⟨mail, file, journal, heq, hakin⟩ := hbeside
      refine ⟨mail, file, journal, ?_, ?_⟩
      · simp only [Console.serve, hmail, heq]
      · simp only [Console.serve, hmail]
        exact hakin
    · rw [hserved]
      exact (Echoed.refl s v).add rfl
  · have hjobs (r : Runner) (due : Bool) (ht : t = .runner due) (hlive : s.console.runner = .live r)
        (hstage : r.stage = .serving) : s.console.mail.jobs = [] := by
      by_contra hjobs
      exact hserves ⟨r, due, hlive, hstage, hjobs, ht⟩
    obtain ⟨hbeside', halike⟩ : (s.clocked sc t).console.Beside (v.clocked sc t).console ∧
        Alike s v (s.clocked sc t) (v.clocked sc t) :=
      beside_clocked hbeside fun r due ht hlive hstage => ⟨hjobs r due ht hlive hstage, hquiet.1⟩
    rw [sitting_of_no_job sc v fun r due ht => hjobs r due ht]
    exact ⟨⟨hbeside', quiet_clocked hsc hquiet t, hconsistent', hattached', ds, hflight'⟩,
      halike.echoed (remains_clocked sc hjobs)⟩

end Scene

/-! ### Procedures of the first desk -/

namespace Procedure

variable {α β : Type} {sc : Scenario}

/-- Before the procedure the clocks keep `R`; every action of the first desk leaves something else that they keep, and
is not remembered but for a copy; and after the procedure there is `Q`. -/
inductive Outlines (sc : Scenario) (Q : α → Scene → Console → Prop) : (Scene → Console → Prop) → Procedure α → Prop
  | done {R r} (hsteady : Scene.Steady sc R) (h : ∀ s d, R s d → Q r s d) : Outlines sc Q R (.done r)
  | act {R a next} (hsteady : Scene.Steady sc R) (K : a.Answer → Scene → Console → Prop)
    (hact : ∀ s d x c, R s d → s.console.act a = some (x, c) →
      K x (s.did a x c) d ∧ (a.events x).filter Event.remains = [])
    (hnext : ∀ x, Outlines sc Q (K x) (next x)) : Outlines sc Q R (.act a next)

def Succeeds (P : α → Scene → Console → Prop) : Except DeskError α → Scene → Console → Prop
  | .ok r => P r
  | .error _ => fun _ _ => False

namespace Outlines

variable {R R' : Scene → Console → Prop}

theorem steady {Q : α → Scene → Console → Prop} {p : Procedure α} (h : p.Outlines sc Q R) : Scene.Steady sc R := by
  cases h <;> assumption

theorem weaken {Q : α → Scene → Console → Prop} {p : Procedure α} (h : p.Outlines sc Q R')
    (hsteady : Scene.Steady sc R) (hR : ∀ s d, R s d → R' s d) : p.Outlines sc Q R := by
  cases h with
  | done _ h => exact .done hsteady fun s d hs => h s d (hR s d hs)
  | act _ K hact hnext => exact .act hsteady K (fun s d x c hs => hact s d x c (hR s d hs)) hnext

theorem absurd {Q : α → Scene → Console → Prop} {p : Procedure α} (hR : ∀ s d, ¬ R s d) : p.Outlines sc Q R := by
  have hsteady {R : Scene → Console → Prop} (hR : ∀ s d, ¬ R s d) : Scene.Steady sc R :=
    fun s v _ h => (hR s v.console h).elim
  induction p generalizing R with
  | done r => exact .done (hsteady hR) fun s d h => (hR s d h).elim
  | act a next ih =>
    exact .act (hsteady hR) (fun _ _ _ => False) (fun s d _ _ h => (hR s d h).elim) fun x => ih x fun _ _ => id

theorem bind {P : α → Scene → Console → Prop} {Q : β → Scene → Console → Prop} {p : Procedure α} {f : α → Procedure β}
    (h : p.Outlines sc P R) (hf : ∀ r, (f r).Outlines sc Q (P r)) : (p >>= f).Outlines sc Q R := by
  induction h with
  | @done R r hsteady h => exact (hf r).weaken hsteady h
  | act hsteady K hact _ ih => exact .act hsteady K hact ih

theorem andThen {o : Order.Op α} {f : α → Order.Op β} {P : Except DeskError α → Scene → Console → Prop}
    {Q : Except DeskError β → Scene → Console → Prop} (h : o.run.Outlines sc P R)
    (hok : ∀ r, (f r).run.Outlines sc Q (P (.ok r)))
    (herror : ∀ e, Outlines sc Q (P (.error e)) (.done (.error e))) : (o >>= f).run.Outlines sc Q R := by
  apply Outlines.bind (p := o.run) h
  rintro (e | r)
  · exact herror e
  · exact hok r

theorem lift {p : Procedure α} {f : α → Order.Op β} {P : α → Scene → Console → Prop}
    {Q : Except DeskError β → Scene → Console → Prop} (h : p.Outlines sc P R)
    (hf : ∀ r, (f r).run.Outlines sc Q (P r)) : ((liftM p : Order.Op α) >>= f).run.Outlines sc Q R := by
  have hlifted : (liftM p : Order.Op α).run.Outlines sc (Succeeds P) R :=
    Outlines.bind (p := p) h fun r => .done (hf r).steady fun _ _ h => h
  exact andThen hlifted hf fun e => .absurd fun _ _ => id

theorem quiet {Q : α → Scene → Console → Prop} {a : Action} {next : a.Answer → Procedure α}
    (hsteady : Scene.Steady sc R) (K : a.Answer → Console → Console → Prop)
    (hact : ∀ s d x c, R s d → s.console.act a = some (x, c) → K x c d ∧ a.events x = [])
    (hnext : ∀ x, (next x).Outlines sc Q fun s d => K x s.console d) : Outlines sc Q R (.act a next) := by
  refine .act hsteady (fun x s d => K x s.console d) (fun s d x c hs hdone => ?_) hnext
  obtain ⟨hK, hevents⟩ := hact s d x c hs hdone
  exact ⟨hK, by rw [hevents]; rfl⟩

end Outlines

end Procedure

/-! ### To join a run that has ended -/

namespace Console.Parting

variable {c d c' : Console}

theorem detached (h : c.Parting true true true true d) :
    { c with desk := { c.desk with attached := false } }.Parting false true true true d := by
  obtain ⟨akin, quiet, quiet', mode, -, seat, beat, kept⟩ := h
  exact .intro (c := { c with desk := { c.desk with attached := false } }) akin quiet quiet' mode rfl seat beat kept

theorem joined_runner (h : c.Parting false true true true d) {whole : Bool}
    (hact : c.act .joinRunner = some (whole, c')) : whole = true ∧ c'.Parting false false true true d := by
  obtain @⟨p, parked, μ, pending, mail, file, journal, akin, quiet, quiet', mode, attached, ⟨hended, -⟩, beat, kept⟩ := h
  rcases of_joinRunner hact with ⟨hnone, -, -⟩ | ⟨p', hended', rfl, rfl⟩ | ⟨hdied, -, -⟩
  · cases hended.symm.trans hnone
  · cases hended.symm.trans hended'
    refine ⟨rfl, ?_⟩
    exact .intro (c := { c with runner := .none, desk := { c.desk with parked := p } }) akin quiet quiet' mode attached
      ⟨rfl, rfl⟩ beat kept
  · cases hended.symm.trans hdied

theorem joined_metronome (h : c.Parting false false true true d) {whole : Bool}
    (hact : c.act .joinMetronome = some (whole, c')) : c'.Parting false false false true d := by
  obtain ⟨rfl, hover⟩ := of_joinMetronome hact
  obtain ⟨akin, quiet, quiet', mode, attached, seat, beat, kept⟩ := h
  exact .intro (c := { c with metronome := .none }) akin quiet quiet' mode attached seat
    ⟨rfl, fun m hlive => hover m (beat.trans hlive)⟩ kept

theorem kept_fault (h : c.Parting false false false true d) {f : Fault} (hfault : c.board.fault = some f) :
    { c with desk := { c.desk with pending := some f } }.Parting false false false false d := by
  obtain ⟨akin, quiet, quiet', mode, attached, seat, beat, kept⟩ := h
  refine .intro (c := { c with desk := { c.desk with pending := some f } }) akin quiet quiet' mode attached seat beat ?_
  show some f = c.board.fault.or _
  rw [hfault]
  rfl

theorem kept_none (h : c.Parting false false false true d) (hfault : c.board.fault = none) :
    c.Parting false false false false d := by
  obtain ⟨akin, quiet, quiet', mode, attached, seat, beat, kept⟩ := h
  refine .intro akin quiet quiet' mode attached seat beat ?_
  rw [hfault]
  exact kept

theorem noted {run runner metronome fault : Bool} (h : c.Parting run runner metronome fault d) (who : Voice) (n : Note) :
    (c.note who n).Parting run runner metronome fault d := by
  obtain ⟨akin, quiet, quiet', mode, attached, seat, beat, kept⟩ := h
  exact .intro (c := c.note who n) akin quiet quiet' mode attached seat beat kept

theorem consistent (h : c.Ahead d) : c.RunConsistent := by
  obtain ⟨-, -, -, mode, attached, ⟨hnone, -⟩, -, -⟩ := h
  refine ⟨fun hmode => absurd mode hmode, ?_, ?_⟩
  · rw [attached, hnone]
    rfl
  · rw [hnone]
    nofun

end Console.Parting

namespace Order

open Procedure (single Outlines)
open Scene (Sent steady_onPar steady_sent steady_parting)

variable {sc : Scenario} {α : Type}

def HasJoined (r : Except DeskError Unit) (s : Scene) (d : Console) : Prop := r = .ok () ∧ s.console.Ahead d

theorem outlines_closeRun (hsc : sc.Only Happening.Apart) :
    (closeRun true).run.Outlines sc HasJoined fun s d => s.console.Parting false false false true d := by
  have hnote {R : Scene → Console → Prop} (hsteady : Scene.Steady sc R) (hR : ∀ s d, R s d → s.console.Ahead d) :
      Outlines sc HasJoined R (.act (.note .stopped) fun _ => .done (.ok ())) := by
    refine .quiet hsteady (fun _ c d => c.Ahead d) (fun s d x c h hdone => ?_) fun _ => ?_
    · cases hdone
      exact ⟨(hR s d h).noted .desk .stopped, rfl⟩
    · exact .done (steady_parting sc) fun s d h => ⟨rfl, h⟩
  -- the clocks are gone, so the fault that was read is still there
  have hsteady (f : Option Fault) : Scene.Steady sc fun s d => s.console.Parting false false false true d ∧
      (∀ r, s.console.runner ≠ .live r) ∧ s.console.board.fault = f := by
    refine (steady_parting sc).and hsc ?_
    rintro s c es ⟨hgone, rfl⟩ hmoves
    refine ⟨fun r hlive => ?_, ?_⟩
    · obtain ⟨r', hlive'⟩ := hmoves.live_of_live hlive
      exact hgone r' hlive'
    · rcases hmoves.fault_or_same with ⟨r, f, hlive, -⟩ | ⟨hsame, -⟩
      · exact absurd hlive (hgone r)
      · exact hsame
  refine .quiet (steady_parting sc)
    (fun f c d => c.Parting false false false true d ∧ (∀ r, c.runner ≠ .live r) ∧ c.board.fault = f)
    (fun s d x c h hdone => ?_) ?_
  · cases hdone
    exact ⟨⟨h, h.gone, rfl⟩, rfl⟩
  rintro (_ | f)
  · exact hnote (hsteady none) fun s d h => h.1.kept_none h.2.2
  · refine .quiet (hsteady (some f)) (fun _ c d => c.Ahead d) (fun s d x c h hdone => ?_) fun _ => ?_
    · cases hdone
      exact ⟨h.1.kept_fault h.2.2, rfl⟩
    · exact hnote (steady_parting sc) fun s d h => h

/-- The first desk joins a run that has ended. -/
theorem outlines_endRun (hsc : sc.Only Happening.Apart) :
    endRun.run.Outlines sc HasJoined fun s d => s.console.Parting true true true true d := by
  refine .quiet (steady_parting sc) (fun _ c d => c.Parting true true true true d) (fun s d x c h hdone => ?_) fun _ => ?_
  · cases hdone
    refine ⟨?_, rfl⟩
    rw [← h.mode_eq]
    exact h
  refine .quiet (steady_parting sc) (fun x c d => x = true ∧ c.Parting true true true true d)
    (fun s d x c h hdone => ?_) ?_
  · cases hdone
    exact ⟨⟨h.attached_eq, h⟩, rfl⟩
  rintro (_ | _)
  · exact .absurd fun s d h => nomatch h.1
  refine .quiet ((steady_parting sc).known _) (fun _ c d => c.Parting false true true true d)
    (fun s d x c h hdone => ?_) fun _ => ?_
  · cases hdone
    exact ⟨h.2.detached, rfl⟩
  refine .quiet (steady_parting sc) (fun whole c d => whole = true ∧ c.Parting false false true true d)
    (fun s d x c h hdone => ⟨h.joined_runner hdone, rfl⟩) ?_
  rintro (_ | _)
  · exact .absurd fun s d h => nomatch h.1
  refine .quiet ((steady_parting sc).known _) (fun _ c d => c.Parting false false false true d)
    (fun s d x c h hdone => ⟨h.2.joined_metronome hdone, rfl⟩) ?_
  rintro (_ | _)
  · refine .quiet (steady_parting sc) (fun _ c d => c.Parting false false false true d) (fun s d x c h hdone => ?_)
      fun _ => outlines_closeRun hsc
    cases hdone
    exact ⟨h.noted .desk .metronomeDied, rfl⟩
  · exact outlines_closeRun hsc

/-- The runner has not made the copy, and if there is a run it has ended. -/
structure Stranded (s : Scene) (d : Console) : Prop where
  onPar : s.console.OnPar d
  gone : s.console.desk.attached = true → ∀ r, s.console.runner ≠ .live r

theorem steady_stranded (hsc : sc.Only Happening.Apart) : Scene.Steady sc Stranded := by
  have hsteady : Scene.Steady sc fun s d => s.console.OnPar d ∧
      (s.console.desk.attached = true → ∀ r, s.console.runner ≠ .live r) := by
    refine (steady_onPar hsc).and hsc ?_
    intro s c es hgone hmoves hattached r hlive
    obtain ⟨r', hlive'⟩ := hmoves.live_of_live hlive
    rw [show c.desk = _ from hmoves.desk_eq] at hattached
    exact hgone hattached r' hlive'
  rintro s v t ⟨honPar, hgone⟩ hdied
  obtain ⟨⟨honPar', hgone'⟩, hechoed⟩ := hsteady s v t ⟨honPar, hgone⟩ hdied
  exact ⟨⟨honPar', hgone'⟩, hechoed⟩

def Told (reply : Option Reply) (s : Scene) (d : Console) : Prop :=
  match reply with
  | some (.captured _) => s.console.OnPar d
  | some .restored => False
  | none => Stranded s d

/-- A run that is attached was not joined by either desk. -/
theorem level_of_attached {c d : Console} (h : c.LevelOrAhead d) (hattached : c.desk.attached = true) : c.Level d := by
  rcases h with hlevel | hahead
  · exact hlevel
  · rw [hahead.attached_eq] at hattached
    cases hattached

theorem sent_of_post {s : Scene} {d c : Console} {ticket : Option Nat} (h : s.console.OnPar d)
    (hattached : s.console.desk.attached = true) (hact : s.console.act (.post .capture) = some (ticket, c)) :
    match ticket with
    | some ticket => Sent ticket ⟨c, s.past⟩ d
    | none => Stranded ⟨c, s.past⟩ d := by
  obtain ⟨⟨mail, file, journal, rfl, hakin⟩, ⟨hjobs, hreplies⟩, hquiet⟩ := level_of_attached h.levelOrAhead hattached
  rcases Console.of_post hact with ⟨r, hlive, rfl, rfl⟩ | ⟨hgone, rfl, rfl⟩
  · have hmail : (s.console.mail.post .capture).jobs = [(s.console.mail.next, .capture)] := by
      simp only [Mailbox.post, hjobs, List.nil_append]
    obtain ⟨hworks, hrun, hlives⟩ := h.consistent
    refine ⟨⟨mail, file, journal, rfl, hakin⟩, hquiet, ⟨hworks, hrun, hlives⟩, hattached, deals s.past, ?_⟩
    exact .waiting hlive hmail hreplies rfl
  · exact ⟨h, fun _ => hgone⟩

theorem told_of_collect {s : Scene} {d c : Console} {ticket : Nat} {reply : Option Reply} (h : Sent ticket s d)
    (hact : s.console.act (.collect ticket) = some (reply, c)) : Told reply ⟨c, s.past⟩ d := by
  obtain ⟨⟨mail, file, journal, rfl, hakin⟩, hquiet, hconsistent, hattached, ds, hflight⟩ := h
  simp only [Console.act, Console.collect] at hact
  cases hflight with
  | waiting hlive hjobs hreplies =>
    simp only [Mailbox.collect?, hreplies, hlive] at hact
    cases hact
  | done hfulfils hjobs hreplies =>
    cases hfulfils
    simp only [Mailbox.collect?, hreplies, List.find?_cons, beq_self_eq_true, Option.map_some] at hact
    cases hact
    obtain ⟨hworks, hrun, hlives⟩ := hconsistent
    refine ⟨.inl ⟨⟨mail, file, journal, rfl, hakin⟩, ⟨hjobs, ?_⟩, hquiet⟩, hworks, hrun, hlives⟩
    simp
  | lost hgone hjobs hreplies =>
    simp only [Mailbox.collect?, hreplies, List.find?_nil, Option.map_none] at hact
    cases hact
    exact ⟨⟨.inl ⟨⟨mail, file, journal, rfl, hakin⟩, ⟨hjobs, hreplies⟩, hquiet⟩, hconsistent⟩, fun _ => hgone⟩

/-- To ask the runner for a copy. -/
theorem outlines_ask (hsc : sc.Only Happening.Apart) :
    (ask .capture).Outlines sc Told fun s d => s.console.OnPar d := by
  have hasked (x : Bool) : Scene.Steady sc fun s d => s.console.OnPar d ∧ s.console.desk.attached = x :=
    (steady_onPar hsc).and hsc fun h hmoves => (congrArg Desk.attached hmoves.desk_eq).trans h
  refine .quiet (steady_onPar hsc) (fun x c d => c.OnPar d ∧ c.desk.attached = x) (fun s d x c h hdone => ?_) ?_
  · cases hdone
    exact ⟨⟨h, rfl⟩, rfl⟩
  rintro (_ | _)
  · refine .done (hasked false) fun s d h => ⟨h.1, fun hattached => ?_⟩
    rw [h.2] at hattached
    cases hattached
  refine .act (hasked true) (fun ticket => match ticket with
    | some ticket => Sent ticket
    | none => Stranded) (fun s d ticket c h hdone => ⟨?_, rfl⟩) ?_
  · rw [Scene.did_of_quiet rfl]
    have hsent := sent_of_post h.1 h.2 hdone
    cases ticket <;> exact hsent
  rintro (_ | ticket)
  · exact .done (steady_stranded hsc) fun s d h => h
  · refine .act (steady_sent hsc ticket) Told (fun s d reply c h hdone => ⟨?_, rfl⟩) fun reply => .done ?_ fun _ _ h => h
    · rw [Scene.did_of_quiet rfl]
      exact told_of_collect h hdone
    · rcases reply with _ | ⟨m⟩ | _
      · exact steady_stranded hsc
      · exact steady_onPar hsc
      · exact fun _ _ _ h _ => h.elim

/-- A run that nobody has joined and that the runner has left. -/
theorem parting_of_stranded {s : Scene} {d : Console} (h : Stranded s d) (hattached : s.console.desk.attached = true) :
    s.console.Parting true true true true d := by
  have hgone := h.gone hattached
  have hstopped : s.console.board.mode = .stopped := by
    by_contra hmode
    obtain ⟨r, hlive, -⟩ := h.onPar.consistent.works hmode
    exact hgone r hlive
  have hhere : s.console.runner.here = true := h.onPar.consistent.attached.symm.trans hattached
  cases hrunner : s.console.runner with
  | none =>
    rw [hrunner] at hhere
    cases hhere
  | live r => exact absurd hrunner (hgone r)
  | died => exact absurd hrunner h.onPar.consistent.lives
  | ended p => exact .of_level (level_of_attached h.onPar.levelOrAhead hattached) hrunner hstopped hattached

/-- What a copy leaves. -/
theorem outlines_capture (hsc : sc.Only Happening.Apart) :
    capture.run.Outlines sc (fun _ s d => s.console.OnPar d) fun s d => s.console.OnPar d := by
  have hsteady : Scene.Steady sc fun s d => s.console.OnPar d := steady_onPar hsc
  have hparked : (single .captureParked : Op Machine).run.Outlines sc (fun _ s d => s.console.OnPar d)
      fun s d => s.console.OnPar d := by
    refine .act hsteady (fun _ s d => s.console.OnPar d) (fun s d m c h hdone => ?_) fun _ =>
      .done hsteady fun _ _ h => h
    cases hdone
    exact ⟨h, rfl⟩
  have halone : (do
      if ← single .isAttached then endRun
      single .captureParked : Op Machine).run.Outlines sc (fun _ s d => s.console.OnPar d) Stranded := by
    refine .quiet (steady_stranded hsc)
      (fun x c d => if x then c.Parting true true true true d else c.OnPar d) (fun s d x c h hdone => ?_) ?_
    · cases hdone
      refine ⟨?_, rfl⟩
      split
      · next hattached => exact parting_of_stranded h hattached
      · exact h.onPar
    rintro (_ | _)
    · exact hparked
    · refine Outlines.andThen (outlines_endRun hsc) (fun _ => hparked.weaken ?_ ?_) fun e => .absurd ?_
      · exact (steady_parting sc).known _
      · exact fun s d h => ⟨.inr h.2, h.2.consistent⟩
      · exact fun s d h => nomatch h.1
  refine Outlines.lift (outlines_ask hsc) ?_
  rintro (_ | ⟨m⟩ | _)
  · exact halone
  · exact .done hsteady fun _ _ h => h
  · exact .absurd fun _ _ => id

theorem onPar_of_file {c d : Console} {f : StateFile} (h : c.OnPar d) (hakin : ∀ {g}, c.file.Akin g → f.Akin g) :
    { c with file := f }.OnPar d := by
  refine ⟨?_, h.consistent.works, h.consistent.attached, h.consistent.lives⟩
  rcases h.levelOrAhead with ⟨⟨mail, file, journal, rfl, hfile⟩, hquiet, hquiet'⟩ |
    ⟨akin, quiet, quiet', mode, attached, seat, beat, kept⟩
  · exact .inl ⟨⟨mail, file, journal, rfl, hakin hfile⟩, hquiet, hquiet'⟩
  · exact .inr (.intro (c := { c with file := f }) (hakin akin) quiet quiet' mode attached seat beat kept)

theorem onPar_of_note {c d : Console} (h : c.OnPar d) (who : Voice) (n : Note) : (c.note who n).OnPar d := by
  refine ⟨?_, h.consistent.works, h.consistent.attached, h.consistent.lives⟩
  rcases h.levelOrAhead with ⟨⟨mail, file, journal, rfl, hfile⟩, hquiet, hquiet'⟩ | hahead
  · exact .inl ⟨⟨mail, file, journal, rfl, hfile⟩, hquiet, hquiet'⟩
  · exact .inr (hahead.noted who n)

/-- What a copy leaves that was written down. -/
theorem outlines_save (hsc : sc.Only Happening.Apart) :
    save.run.Outlines sc (fun _ s d => s.console.OnPar d) fun s d => s.console.OnPar d := by
  have hsteady : Scene.Steady sc fun s d => s.console.OnPar d := steady_onPar hsc
  have hend (answer : Except DeskError Unit) :
      Outlines sc (fun _ s d => s.console.OnPar d) (fun s d => s.console.OnPar d) (.done answer) :=
    .done hsteady fun _ _ h => h
  refine Outlines.andThen (outlines_capture hsc) (fun m => ?_) fun e => .done hsteady fun _ _ h => h
  refine .quiet hsteady (fun _ c d => c.OnPar d) (fun s d x c h hdone => ?_) ?_
  · simp only [Console.act] at hdone
    split at hdone
    · next f hcreate =>
      cases hdone
      exact ⟨onPar_of_file h fun hakin => hakin.of_create hcreate, rfl⟩
    · cases hdone
      exact ⟨h, rfl⟩
  rintro (e | _)
  · exact hend _
  refine .quiet hsteady (fun _ c d => c.OnPar d) (fun s d x c h hdone => ?_) ?_
  · simp only [Console.act] at hdone
    split at hdone
    · next f happend =>
      cases hdone
      exact ⟨onPar_of_file h fun hakin => hakin.of_append happend, rfl⟩
    · cases hdone
      exact ⟨h, rfl⟩
  rintro (e | _)
  · exact hend _
  refine .quiet hsteady (fun _ c d => c.OnPar d) (fun s d x c h hdone => ?_) fun path => ?_
  · cases hdone
    exact ⟨h, rfl⟩
  refine .quiet hsteady (fun _ c d => c.OnPar d) (fun s d x c h hdone => ?_) fun _ => hend _
  cases hdone
  exact ⟨onPar_of_note h .desk (.savedTo path), rfl⟩

/-- **A copy is beside the point**, whether it is written down or not. -/
theorem outlines_order (hsc : sc.Only Happening.Apart) {q : Request} (hq : q.Copies) :
    q.order.run.Outlines sc (fun _ s d => s.console.OnPar d) fun s d => s.console.OnPar d := by
  have hsteady : Scene.Steady sc fun s d => s.console.OnPar d := steady_onPar hsc
  obtain rfl | rfl := hq
  · exact Outlines.andThen (outlines_capture hsc) (fun _ => .done hsteady fun _ _ h => h) fun _ =>
      .done hsteady fun _ _ h => h
  · exact Outlines.andThen (outlines_save hsc) (fun _ => .done hsteady fun _ _ h => h) fun _ =>
      .done hsteady fun _ _ h => h

end Order

/-! ### The second office -/

namespace Office

/-- The desk gives its answer in the last of these turns. -/
def Concludes (sc : Scenario) : Office → List Turn → Prop
  | _, [] => False
  | o, t :: turns => if (o.advance sc t).task.isNone then turns = [] else (o.advance sc t).Concludes sc turns

/-- The turns of the clocks, but for those in which the runner hands out a copy. -/
def bare (sc : Scenario) : Office → List Turn → List Turn
  | _, [] => []
  | o, t :: turns =>
    (if t.isClock && !o.console.handsOut t then [t] else []) ++ (o.advance sc t).bare sc turns

variable {sc : Scenario} {q : Request}

theorem run_sitting (sc : Scenario) (s v : Scene) (t : Turn) :
    ({ toScene := v } : Office).run sc (if t.isClock && !s.console.handsOut t then [t] else []) =
      { toScene := s.sitting sc v t } := by
  by_cases ht : t.isClock = true
  · unfold Scene.sitting
    cases s.console.handsOut t with
    | true => simp [run]
    | false =>
      simp only [ht, Bool.not_false, Bool.and_self, if_true, Bool.false_eq_true, if_false]
      exact advance_clock sc ht v
  · cases t with
    | runner | metronome => exact absurd rfl ht
    | desk | call | refuse | file => rfl

/-- While the first desk is at a request, the second office moves with the clocks, but for turns that it sits out. -/
theorem Concludes.outlines {Q : Request.Answer → Scene → Console → Prop}
    {turns : List Turn} {s v : Scene} {p : Procedure Request.Answer} {R : Scene → Console → Prop}
    (hturns : (busy s q p).Concludes sc turns) (h : p.Outlines sc Q R) (hR : R s v.console)
    (hdied : .died ∉ ((busy s q p).run sc turns).past) :
    ∃ answer s' v', (busy s q p).run sc turns = { toScene := s'.add (.answered q answer) } ∧
      ({ toScene := v } : Office).run sc ((busy s q p).bare sc turns) = { toScene := v' } ∧
        Q answer s' v'.console ∧ Scene.Echoed s v s' v' := by
  induction turns generalizing s v p R with
  | nil => exact hturns.elim
  | cons t turns ih =>
    have hbefore : .died ∉ ((busy s q p).advance sc t).past := by
      obtain ⟨es, hes⟩ := past_run sc ((busy s q p).advance sc t) turns
      intro hmem
      exact hdied (by rw [run_cons, hes]; exact List.mem_append_left es hmem)
    rw [Concludes] at hturns
    rw [run_cons] at hdied
    simp only [bare, run_append, run_cons]
    by_cases ht : t = .desk
    · subst ht
      have hwaits : ({ toScene := v } : Office).run sc
          (if Turn.desk.isClock && !(busy s q p).console.handsOut .desk then [.desk] else []) = { toScene := v } := rfl
      rw [hwaits]
      cases h with
      | @done _ answer hsteady hQ =>
        obtain rfl : turns = [] := hturns
        exact ⟨answer, s, v, rfl, rfl, hQ s v.console hR, .refl s v⟩
      | @act _ a next hsteady K hact hnext =>
        cases hdone : s.console.act a with
        | none =>
          have hstays : (busy s q (.act a next)).advance sc .desk = busy s q (.act a next) := by
            simp only [advance, work, busy, hdone]
          rw [hstays] at hturns hdied ⊢
          exact ih hturns (.act hsteady K hact hnext) hR hdied
        | some done =>
          obtain ⟨x, c⟩ := done
          obtain ⟨hK, hevents⟩ := hact s v.console x c hR hdone
          rw [advance_act sc hdone q next] at hturns hdied ⊢
          obtain ⟨answer, s', v', hrun, hrun', hQ, hechoed⟩ := ih hturns (hnext x) hK hdied
          exact ⟨answer, s', v', hrun, hrun', hQ, (Scene.Echoed.refl s v).add hevents |>.trans hechoed⟩
    · have hadvance : (busy s q p).advance sc t = busy (s.clocked sc t) q p := advance_of_ne_desk sc s q p ht
      have hsits : ({ toScene := v } : Office).run sc
          (if t.isClock && !(busy s q p).console.handsOut t then [t] else []) = { toScene := s.sitting sc v t } :=
        run_sitting sc s v t
      rw [hadvance] at hturns hdied hbefore ⊢
      rw [hsits]
      obtain ⟨hR', hechoed⟩ := h.steady s v t hR hbefore
      obtain ⟨answer, s', v', hrun, hrun', hQ, hechoed'⟩ := ih hturns h hR' hdied
      exact ⟨answer, s', v', hrun, hrun', hQ, hechoed.trans hechoed'⟩

end Office

end ChipEight
