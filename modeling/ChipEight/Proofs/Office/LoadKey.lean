import ChipEight.Proofs.Office.Continuity
import ChipEight.Proofs.Office.Reload

/-!
# The load key

The key holds the machine, loads the state file, and lets the machine go on if it was running (`handle` with `Load`).
Three procedures come one after the other, and the clocks move all the time.

* `Order.ofControl_load` : the procedures of which the key is made.
* `Order.exists_load` : before and after the load the desk only switches.
* `Order.ofControl_load_settles` : what the key answers, what it replaces, and what it does to the run state.
* `Order.obey_smooth` : the desk comes to the end of it.
* `Scene.Reloads` : what there is to say of the machine and its run state afterwards.
* `Errand.load_key` : all together, in every run state and whatever the state file holds.
* `Errand.torn_load` : the run state that the key does not leave as it was.
-/

namespace ChipEight

open Procedure (single Secures Leads Within Comes)
open Scene (Fits Rests)

/-! ### The procedures of the key -/

theorem Procedure.bind_bind {α β γ : Type} (p : Procedure α) (f : α → Procedure β) (g : β → Procedure γ) :
    (p >>= f) >>= g = p >>= fun x => f x >>= g := by
  induction p with
  | done r => rfl
  | act a next ih => exact congrArg (Procedure.act a) (funext ih)

namespace Order

variable {α β : Type}

theorem run_lift (p : Procedure α) (f : α → Op β) : ((liftM p : Op α) >>= f).run = p >>= fun x => (f x).run :=
  p.bind_bind _ _

/-- What comes after the load: the machine goes on if it was running before. -/
def goOn (before : Mode) : Procedure Unit := if before = .running then resume else return

/-- The key holds the machine, loads, and lets it go on. -/
theorem ofControl_load (program : List UInt8) :
    (ofControl program .load).run = (do
      let before ← single .readMode
      pause
      let answer ← load.run
      goOn before
      return answer) := by
  unfold ofControl goOn
  refine (run_lift (single .readMode) _).trans ?_
  congr 1
  funext before
  refine (run_lift pause _).trans ?_
  congr 1
  funext _
  refine (run_lift load.run _).trans ?_
  congr 1
  funext answer
  split
  · refine (run_lift resume _).trans ?_
    congr 1
    funext _
    cases answer <;> rfl
  · cases answer <;> rfl

def report (k : Control) : Except DeskError Unit → Procedure Unit
  | .ok () => return
  | .error e => single (.note (.controlFailed k e))

theorem obey_eq (program : List UInt8) (k : Control) : obey program k = (ofControl program k).run >>= report k := by
  unfold obey
  congr 1
  funext answer
  cases answer <;> rfl

end Order

/-! ### Holding and letting go -/

namespace Order

variable {A : (a : Action) → a.Answer → Prop} {f : StateFile} {e : DeskError}

theorem pause_switches : pause.Within A Action.Switches fun _ => True := by
  refine ⟨trivial, ?_⟩
  rintro (_ | _ | _) _
  · trivial
  · exact ⟨nofun, fun _ _ => ⟨trivial, fun _ _ => trivial⟩⟩
  · trivial

theorem goOn_switches (before : Mode) : (goOn before).Within A Action.Switches fun _ => True := by
  unfold goOn
  split
  · refine ⟨trivial, ?_⟩
    rintro (_ | _ | _) _
    · trivial
    · trivial
    · exact ⟨nofun, fun _ _ => ⟨trivial, fun _ _ => trivial⟩⟩
  · trivial

theorem report_retains (k : Control) (answer : Except DeskError Unit) (mode : Mode) :
    (report k answer).Within A (Action.Retains mode) fun _ => True := by
  cases answer with
  | ok => trivial
  | error e => exact ⟨⟨trivial, nofun⟩, fun _ _ => trivial⟩

theorem report_switches (k : Control) (answer : Except DeskError Unit) :
    (report k answer).Within A Action.Switches fun _ => True :=
  (report_retains k answer .stopped).mono (fun _ _ h => h) (fun _ ha => ha.1) fun _ h => h

theorem obey_switches (program : List UInt8) (hbad : f.image = .error e) :
    (obey program .load).Within (Action.Finds f) Action.Switches fun _ => True := by
  rw [obey_eq, ofControl_load]
  refine Within.bind (P := fun _ => True) ?_ fun answer _ => report_switches .load answer
  refine Within.bind (P := fun _ => True) ⟨trivial, fun _ _ => trivial⟩ fun before _ => ?_
  refine Within.bind pause_switches fun _ _ => ?_
  refine Within.bind ((load_switches hbad before).mono (fun _ _ h => h) (fun _ ha => ha.1) fun _ h => h) fun _ _ => ?_
  exact Within.bind (goOn_switches before) fun _ _ => trivial

end Order

namespace Scene

/-- Where none of the events has happened all the way, none has up to a point on it, and none after that. -/
theorem not_eventSince_split {X : Event → Prop} {s₁ s' : Scene} (h : ¬ EventSince X s s') (hext : Extends s s₁)
    (hext' : Extends s₁ s') : ¬ EventSince X s s₁ ∧ ¬ EventSince X s₁ s' := by
  obtain ⟨es, hes, -⟩ := hext
  obtain ⟨es', hes', -⟩ := hext'
  exact ⟨fun hevent => h (hevent.append hes'), fun hevent => h (hevent.after hes)⟩

end Scene

namespace Order

variable {sc : Scenario} {s s' : Scene} {ds : List Event}

/-- What one run state becomes where the desk takes it for another. -/
theorem mode_of_toggle (hkeeps : sc.Only Happening.KeepsMode) {found set : Mode} {n : Note}
    (hn : (Action.note n).Switches) {r : Unit}
    (h : (Procedure.act .readMode fun m =>
      if m = found then .act (.setMode set) fun _ => .act (.note n) .done else .done ()).Comes sc s r s')
    (hquiet : ¬ Scene.EventSince Event.EndsRun s s') :
    s'.console.board.mode = if s.console.board.mode = found then set else s.console.board.mode := by
  cases h with
  | @act _ _ _ s₁ _ _ _ _ hdrift hact hnext =>
    obtain ⟨hbefore, hafter⟩ := Scene.not_eventSince_split hquiet (Extends.of_drifts hdrift).did hnext.grows
    cases hact
    have hmode₁ : (s₁.did .readMode s₁.console.board.mode s₁.console).console.board.mode = s.console.board.mode :=
      ((Scene.grants_mode hkeeps _).drifts rfl hdrift).resolve_left fun hevent => hbefore (hevent.append rfl)
    by_cases hfound : s.console.board.mode = found
    · have hfound₁ : s₁.console.board.mode = found := hmode₁.trans hfound
      simp only [if_pos hfound₁] at hnext
      rw [if_pos hfound]
      cases hnext with
      | act hdrift' hact' hnext' =>
        obtain ⟨-, hlast⟩ := Scene.not_eventSince_split hafter (Extends.of_drifts hdrift').did hnext'.grows
        cases hact'
        have hnote : (Procedure.act (.note n) fun _ => .done ()).Within (Action.Reads set)
            (Action.Retains set) fun _ => True := ⟨⟨hn, nofun⟩, fun _ _ => trivial⟩
        exact ((hnext'.within (Scene.grants_mode hkeeps set) hnote rfl).resolve_left hlast).2
    · have hfound₁ : s₁.console.board.mode ≠ found := fun hmode => hfound (hmode₁.symm.trans hmode)
      simp only [if_neg hfound₁] at hnext
      rw [if_neg hfound]
      exact ((hnext.within (Q := fun _ => True) (Scene.grants_mode hkeeps _) trivial hmode₁).resolve_left hafter).2

theorem mode_of_pause (hkeeps : sc.Only Happening.KeepsMode) {r : Unit} (h : pause.Comes sc s r s')
    (hquiet : ¬ Scene.EventSince Event.EndsRun s s') :
    s'.console.board.mode = if s.console.board.mode = .running then .paused else s.console.board.mode :=
  mode_of_toggle hkeeps (n := .paused) trivial h hquiet

theorem mode_of_goOn (hkeeps : sc.Only Happening.KeepsMode) {before : Mode} {r : Unit}
    (h : (goOn before).Comes sc s r s') (hquiet : ¬ Scene.EventSince Event.EndsRun s s') :
    s'.console.board.mode =
      if before = .running ∧ s.console.board.mode = .paused then .running else s.console.board.mode := by
  unfold goOn at h
  by_cases hbefore : before = .running
  · rw [if_pos hbefore] at h
    simp only [hbefore, true_and]
    exact mode_of_toggle hkeeps (n := .resumed) trivial h hquiet
  · rw [if_neg hbefore] at h
    rw [if_neg fun hboth => hbefore hboth.1]
    exact ((h.within (Q := fun _ => True) (Scene.grants_mode hkeeps _) trivial rfl).resolve_left hquiet).2

end Order

/-! ### What is left alone where the desk only switches -/

namespace Scene

variable {sc : Scenario} {s s' s'' : Scene} {ds : List Event} {J : Scene → Prop}

theorem Firm.grants (h : Firm sc J) : Grants sc (fun _ _ => True) Action.Switches (fun _ => False) J where
  moves hs hmoves := .inr (h.moves hs hmoves)
  acts {s a x c} hs ha hact := by
    obtain ⟨x', c', hact', hevents, hunmoved⟩ := s.console.act_of_inert ha.inert
    cases hact'.symm.trans hact
    rw [did_of_quiet hevents]
    exact ⟨trivial, h.unmoved hs hunmoved⟩

theorem firm_attached (attached : Bool) : Firm sc fun s => s.console.desk.attached = attached where
  moves hs hmoves := (congrArg Desk.attached hmoves.desk_eq).trans hs
  unmoved hs hc := hc.attached.trans hs

theorem grants_lives : Grants sc (fun _ _ => True) Action.Switches Event.EndsRun fun s => s.console.runner ≠ .died where
  moves {s c es} hs hmoves := by
    by_cases hdied : c.runner = .died
    · rcases hmoves.died_of_died hdied with hbefore | ⟨-, rfl⟩
      · exact absurd hbefore hs
      · exact .inl ⟨.died, by simp, .inl rfl⟩
    · exact .inr hdied
  acts {s a x c} hs ha hact := by
    obtain ⟨-, mode, journal, rfl, -⟩ := Console.act_of_switches ha hact
    exact ⟨trivial, hs⟩

/-- What a desk that only switches leaves as it was, if no run ends. -/
structure Steadies (s s' : Scene) : Prop where
  rests : ∀ {ds}, s.Rests ds → s'.Rests ds
  file : s'.console.file = s.console.file
  attached : s'.console.desk.attached = s.console.desk.attached
  lives : s.console.runner ≠ .died → s'.console.runner ≠ .died
  torn : s.console.Torn → s'.console.Torn
  atWork : s.console.AtWork → s'.console.AtWork

theorem Steadies.trans (h : s.Steadies s') (h' : s'.Steadies s'') : s.Steadies s'' where
  rests hrests := h'.rests (h.rests hrests)
  file := h'.file.trans h.file
  attached := h'.attached.trans h.attached
  lives hlives := h'.lives (h.lives hlives)
  torn htorn := h'.torn (h.torn htorn)
  atWork hwork := h'.atWork (h.atWork hwork)

/-- A run that has ended by now and does not look so had ended before. -/
theorem Steadies.torn_of_torn (h : s.Steadies s') (hrests : s.Rests ds)
    (hstops : s.console.board.mode = .stopped → s'.console.board.mode = .stopped) (htorn : s'.console.Torn) :
    s.console.Torn := by
  rcases hrests.cases with hstopped | hwork | htorn₀ | hattached
  · exact absurd (hstops hstopped) htorn.mode
  · obtain ⟨-, r, hlive, hstage⟩ := h.atWork hwork
    exact absurd (htorn.ended r hlive) hstage
  · exact htorn₀
  · cases htorn.attached.symm.trans (h.attached.trans hattached)

end Scene

theorem Procedure.Comes.steadies {α : Type} {sc : Scenario} {p : Procedure α} {s s' : Scene} {r : α} {Q : α → Prop}
    (hkeeps : sc.Only Happening.KeepsMode) (h : p.Comes sc s r s')
    (hp : p.Within (fun _ _ => True) Action.Switches Q) (hquiet : ¬ Scene.EventSince Event.EndsRun s s') :
    s.Steadies s' where
  rests hrests := ((h.within Scene.firm_rests.grants hp hrests).resolve_left Scene.not_eventSince).2
  file := by
    have hfinds : p.Within (Action.Finds s.console.file) Action.Switches Q :=
      hp.mono (fun _ _ _ => trivial) (fun _ h => h) fun _ h => h
    exact ((h.within (Scene.grants_finds s.console.file) hfinds rfl).resolve_left Scene.not_eventSince).2
  attached := ((h.within (Scene.firm_attached _).grants hp rfl).resolve_left Scene.not_eventSince).2
  lives hlives := ((h.within Scene.grants_lives hp hlives).resolve_left hquiet).2
  torn htorn := ((h.within Scene.grants_torn hp htorn).resolve_left Scene.not_eventSince).2
  atWork hwork := ((h.within (Scene.grants_atWork hkeeps) hp hwork).resolve_left hquiet).2

/-! ### What the key leaves -/

namespace Order

variable {sc : Scenario} {s s' : Scene} {ds : List Event} {answer : Except DeskError Unit}

/-- A machine that was held and let go is in the run state in which it was found. -/
theorem held_and_released (found : Mode) :
    (if found = .running ∧ (if found = .running then Mode.paused else found) = .paused then .running
      else if found = .running then .paused else found) = found := by
  cases found <;> rfl

/-- The load is between two parts in which the desk only switches. -/
theorem exists_load (hkeeps : sc.Only Happening.KeepsMode) {program : List UInt8}
    (h : (ofControl program .load).run.Comes sc s answer s') (hquiet : ¬ Scene.EventSince Event.EndsRun s s') :
    ∃ s₁ s₂, s.Steadies s₁ ∧
      s₁.console.board.mode = (if s.console.board.mode = .running then .paused else s.console.board.mode) ∧
      load.run.Comes sc s₁ answer s₂ ∧ ¬ Scene.EventSince Event.EndsRun s₁ s₂ ∧ s₂.Steadies s' ∧
      s'.console.board.mode =
        if s.console.board.mode = .running ∧ s₂.console.board.mode = .paused then .running
        else s₂.console.board.mode := by
  rw [ofControl_load] at h
  obtain ⟨before, s₀, hlook, h⟩ := h.bind
  obtain ⟨hquiet₀, hquiet⟩ := Scene.not_eventSince_split hquiet hlook.grows h.grows
  obtain ⟨_, s₁, hpause, h⟩ := h.bind
  obtain ⟨hquiet₁, hquiet⟩ := Scene.not_eventSince_split hquiet hpause.grows h.grows
  obtain ⟨answer', s₂, hload, h⟩ := h.bind
  obtain ⟨hquiet₂, hquiet⟩ := Scene.not_eventSince_split hquiet hload.grows h.grows
  obtain ⟨_, s₃, hgo, hreturn⟩ := h.bind
  obtain ⟨hquiet₃, hquiet₄⟩ := Scene.not_eventSince_split hquiet hgo.grows hreturn.grows
  cases hreturn with
  | done hdrift =>
  have hlooks : (single .readMode).Within (Action.Reads s.console.board.mode)
      (Action.Retains s.console.board.mode) (· = s.console.board.mode) := ⟨⟨trivial, nofun⟩, fun _ h => h⟩
  obtain ⟨rfl, hmode₀⟩ := (hlook.within (Scene.grants_mode hkeeps _) hlooks rfl).resolve_left hquiet₀
  have hlooked : s.Steadies s₀ :=
    hlook.steadies (Q := fun _ => True) hkeeps ⟨trivial, fun _ _ => trivial⟩ hquiet₀
  have hreturn : (Procedure.done answer).Comes sc s₃ answer s' := .done hdrift
  have hreturned : s₃.Steadies s' := hreturn.steadies (Q := fun _ => True) hkeeps trivial hquiet₄
  have hmode₁ := mode_of_pause hkeeps hpause hquiet₁
  rw [hmode₀] at hmode₁
  have hmode' : s'.console.board.mode = s₃.console.board.mode :=
    ((Scene.grants_mode hkeeps _).drifts rfl hdrift).resolve_left hquiet₄
  exact ⟨s₁, s₂, hlooked.trans (hpause.steadies hkeeps pause_switches hquiet₁), hmode₁, hload, hquiet₂,
    (hgo.steadies hkeeps (goOn_switches _) hquiet₃).trans hreturned, hmode'.trans (mode_of_goOn hkeeps hgo hquiet₃)⟩

/-- **What the key leaves**, if no run ends meanwhile: what it answers, what it replaces, and what it does to the run
state. -/
theorem ofControl_load_settles (hkeeps : sc.Only Happening.KeepsMode) {program : List UInt8}
    (h : (ofControl program .load).run.Comes sc s answer s') (hrests : s.Rests ds)
    (hlives : s.console.runner ≠ .died) (hquiet : ¬ Scene.EventSince Event.EndsRun s s') :
    answer = s.console.file.image.map (fun _ => ()) ∧
      (∃ ds', s.console.file.Deals ds' ∧ s'.Rests (ds ++ ds')) ∧
      (¬ (s.console.Torn ∧ ∃ m, s.console.file.image = .ok m) → s'.console.board.mode = s.console.board.mode) ∧
      (s.console.Torn → ∀ m, s.console.file.image = .ok m → s'.console.board.mode = .stopped) ∧
      (s.console.AtWork → s'.console.AtWork) := by
  obtain ⟨s₁, s₂, hbefore, hmode₁, hload, hquiet, hafter, hmode'⟩ := exists_load hkeeps h hquiet
  have hheld : s₁.console.board.mode ≠ .running := by
    rw [hmode₁]
    cases s.console.board.mode <;> decide
  have hrests₁ : s₁.Rests ds := hbefore.rests hrests
  obtain ⟨hanswer, ds', hdeals, hrests₂⟩ := load_settles hkeeps hload hrests₁ hheld (hbefore.lives hlives) hquiet
  obtain ⟨hsame, hstopped, hwork⟩ := load_mode hkeeps hload hrests₁ hheld hquiet
  rw [hbefore.file] at hanswer hdeals hsame hstopped
  refine ⟨hanswer, ⟨ds', hdeals, hafter.rests hrests₂⟩, ?_, ?_, ?_⟩
  · rintro hnot
    have hstops (hmode : s.console.board.mode = .stopped) : s₁.console.board.mode = .stopped := by
      rw [hmode₁, hmode]
      rfl
    have hmode₂ := hsame fun ⟨htorn, hgood⟩ => hnot ⟨hbefore.torn_of_torn hrests hstops htorn, hgood⟩
    rw [hmode', hmode₂, hmode₁]
    exact held_and_released _
  · intro htorn m hgood
    have hmode₂ := hstopped (hbefore.torn htorn) m hgood
    rw [hmode', hmode₂]
    exact if_neg fun hboth => nomatch hboth.2
  · intro hwork₀
    exact hafter.atWork (hwork (hbefore.atWork hwork₀))

end Order

/-! ### The way there -/

/-- The action fits a load, and the desk does not wait for a clock that is not on its way out. -/
def Scene.Smooth (sc : Scenario) (s : Scene) (a : Action) : Prop := s.Fits sc .load a ∧ s.console.Yields a

theorem Procedure.Within.smooth {α : Type} {sc : Scenario} {p : Procedure α} {Q : α → Prop} {J : Scene → Prop}
    {s : Scene} (h : p.Within (fun _ _ => True) Action.Switches Q) (hfirm : Scene.Firm sc J) (hs : J s) :
    p.Secures sc (Scene.Smooth sc) (fun _ => J) s := by
  induction p generalizing s with
  | done r => exact Secures.done hs
  | act a next ih =>
    refine Leads.quiet (K := fun _ => J) (fun s' hdrift => ?_) fun x s' hs' => ih x (h.2 x trivial) hs'
    obtain ⟨x, c, hact, hevents, hunmoved⟩ := s'.console.act_of_inert h.1.inert
    exact ⟨⟨s'.fits_of_inert h.1.inert, h.1.yields _⟩, x, c, hact, hevents,
      hfirm.unmoved (hfirm.drifts hs hdrift) hunmoved⟩

namespace Order

variable {sc : Scenario} {s : Scene} {ds : List Event}

theorem pause_smooth (hkeeps : sc.Only Happening.KeepsMode) (h : s.Rests ds) :
    pause.Secures sc (Scene.Smooth sc) (fun _ s' => s'.Rests ds ∧ s'.console.board.mode ≠ .running) s := by
  have hdrifts {s s' : Scene} (h : s.Rests ds ∧ s.console.board.mode ≠ .running) (hdrift : s.Drifts sc s') :
      s'.Rests ds ∧ s'.console.board.mode ≠ .running := by
    have hgrants := Scene.grants_held hkeeps (B := Request.load.bounds) id
    exact ⟨Scene.firm_rests.drifts h.1 hdrift, (hgrants.drifts h.2 hdrift).resolve_left Scene.not_eventSince⟩
  refine Leads.quiet (K := fun m s' => s'.Rests ds ∧ s'.console.board.mode = m) (fun s' hdrift => ?_) ?_
  · exact ⟨⟨⟨trivial, trivial⟩, trivial⟩, _, _, rfl, rfl, Scene.firm_rests.drifts h hdrift, rfl⟩
  rintro mode s₁ ⟨h₁, hmode⟩
  cases mode with
  | stopped | paused =>
    refine Secures.done ⟨h₁, ?_⟩
    rw [hmode]
    nofun
  | running =>
    refine Leads.quiet (K := fun _ s' => s'.Rests ds ∧ s'.console.board.mode ≠ .running) (fun s' hdrift => ?_) ?_
    · exact ⟨⟨⟨trivial, trivial⟩, trivial⟩, _, _, rfl, rfl,
        (Scene.firm_rests.drifts h₁ hdrift).unmoved ⟨rfl, rfl, rfl, rfl, rfl, rfl⟩, nofun⟩
    rintro _ s₂ h₂
    refine Leads.quiet (K := fun _ s' => s'.Rests ds ∧ s'.console.board.mode ≠ .running) (fun s' hdrift => ?_)
      fun _ s₃ h₃ => Secures.done h₃
    obtain ⟨hrests, hheld⟩ := hdrifts h₂ hdrift
    exact ⟨⟨⟨trivial, trivial⟩, trivial⟩, _, _, rfl, rfl, hrests.unmoved ⟨rfl, rfl, rfl, rfl, rfl, rfl⟩, hheld⟩

theorem load_smooth (hkeeps : sc.Only Happening.KeepsMode) (h : s.Rests ds) (hheld : s.console.board.mode ≠ .running) :
    load.run.Secures sc (Scene.Smooth sc) (fun _ s' => ∃ ds', s'.Rests (ds ++ ds')) s := by
  have hgrants := Scene.grants_held hkeeps (B := Request.load.bounds) id
  have hloads : load.run.Secures sc (Fits sc .load) _ s := load_secures rfl h
  have hguarded := (hloads.within (load_blames fun _ _ => True)).guarded hheld
    (fun h hmoves => (hgrants.moves h hmoves).resolve_left (by simp)) fun h hfits hact => (hgrants.acts h hfits.2 hact).2
  refine hguarded.mono (fun s a h => ⟨h.1.1, h.1.1.yields_of_held hkeeps h.2⟩) ?_
  rintro _ s' ⟨⟨answer, rfl, hend⟩, -⟩
  refine ⟨answer, rfl, ?_⟩
  cases answer with
  | ok u =>
    obtain ⟨who, m, bytes, -, -, hrests⟩ := hend
    exact ⟨_, hrests⟩
  | error e => exact ⟨[], by rw [List.append_nil]; exact hend.2⟩

/-- **The desk comes to the end of the key**, and is at rest. -/
theorem obey_smooth (hkeeps : sc.Only Happening.KeepsMode) (program : List UInt8) (h : s.Rests ds) :
    (obey program .load).Secures sc (Scene.Smooth sc) (fun _ s' => ∃ ds', s'.Rests (ds ++ ds')) s := by
  have hlook : (single .readMode).Secures sc (Scene.Smooth sc) (fun _ s' => s'.Rests ds) s :=
    Within.smooth (Q := fun _ => True) ⟨trivial, fun _ _ => trivial⟩ Scene.firm_rests h
  rw [obey_eq, ofControl_load]
  refine Secures.leads (Q := fun _ s' => ∃ ds', s'.Rests (ds ++ ds')) ?_ fun answer s' ⟨ds', h'⟩ => ?_
  · refine hlook.leads fun before s₀ h₀ => ?_
    refine (pause_smooth hkeeps h₀).leads fun _ s₁ ⟨h₁, hheld⟩ => ?_
    refine (load_smooth hkeeps h₁ hheld).leads fun answer s₂ ⟨ds', h₂⟩ => ?_
    refine ((goOn_switches before).smooth Scene.firm_rests h₂).leads fun _ s₃ h₃ => ?_
    exact Secures.done ⟨ds', h₃⟩
  · exact ((report_switches .load answer).smooth Scene.firm_rests h').mono fun _ _ h => ⟨ds', h⟩

end Order

/-! ### What has happened to the machine -/

def Event.Stays : Event → Prop
  | .seated _ | .cleared | .lost => False
  | _ => True

theorem Event.Stays.steady {e : Event} (h : e.Stays) (hdeal : e.isDeal = false) (hends : ¬ e.EndsRun) : e.Steady := by
  cases e with
  | seated | cleared | lost => exact h.elim
  | died => exact absurd (.inl rfl) hends
  | replaced => cases hdeal
  | _ => trivial

/-- Where nothing was copied or replaced and no run has ended, there were steps and ticks. -/
theorem steady_of_stays {es : List Event} (hstays : ∀ e ∈ es, e.Stays) (hdeals : deals es = [])
    (hends : ∀ e ∈ es, ¬ e.EndsRun) : ∀ e ∈ es, e.Steady := by
  intro e he
  have hdeal : e.isDeal = false := Bool.eq_false_iff.mpr (List.filter_eq_nil_iff.mp hdeals e he)
  exact (hstays e he).steady hdeal (hends e he)

theorem Console.Moves.stays {sc : Scenario} {c c' : Console} {es : List Event} (h : c.Moves sc c' es) :
    ∀ e ∈ es, e.Stays := by
  cases h <;> simp [Event.Stays]

/-- Only a request that makes a run puts another processor in place. -/
theorem Scene.grants_stays {sc : Scenario} {B : Action.Bounds} (hthreads : ¬ B.threads)
    (hprocessors : ∀ p, ¬ B.processors p) (s₀ : Scene) :
    Grants sc (fun _ _ => True) (Action.Bounded B) (fun _ => False) fun s =>
      ∃ es, s.past = s₀.past ++ es ∧ ∀ e ∈ es, e.Stays where
  moves {s c es} hs hmoves := by
    obtain ⟨es₀, hpast, hstays⟩ := hs
    refine .inr ⟨es₀ ++ es, by rw [hpast, List.append_assoc], fun e he => ?_⟩
    exact (List.mem_append.mp he).elim (hstays e) (hmoves.stays e)
  acts {s a x c} hs ha hact := by
    obtain ⟨es₀, hpast, hstays⟩ := hs
    refine ⟨trivial, es₀ ++ a.events x, by rw [did, hpast, List.append_assoc], fun e he => ?_⟩
    rcases List.mem_append.mp he with hold | hnew
    · exact hstays e hold
    · cases a with
      | park p => exact absurd ha (hprocessors p)
      | resetBoard =>
        obtain ⟨p, hp⟩ := ha
        exact absurd hp (hprocessors p)
      | spawnRunner | spawnMetronome => exact absurd ha hthreads
      | captureParked | replaceParked =>
        cases List.mem_singleton.mp hnew
        trivial
      | note n =>
        cases n with
        | previousRunEnded f =>
          cases List.mem_singleton.mp hnew
          trivial
        | _ => cases hnew
      | _ => cases hnew

/-- The core that steps and ticks make of `k`, if the machine is replaced after some of them. -/
def Core.replaced (o : Surroundings) (k : Core) (before : List Core.Beat) (m : Machine) (after : List Core.Beat) :
    Core :=
  ((k.play o before).restore m).play o after

theorem machine_replay_replaced {o : Surroundings} {k : Core} {earlier later : List Event} {who : Voice} {m : Machine}
    (hearlier : ∀ e ∈ earlier, e.Steady) (hlater : ∀ e ∈ later, e.Steady) :
    (replay o k (earlier ++ .replaced who m :: later)).machine =
      (k.replaced o (beats earlier) m (beats later)).machine := by
  have hself : k.Alike o o k := ⟨rfl, fun _ => rfl, fun _ => rfl⟩
  have hbefore := alike_play hself hearlier
  have hreplaced := (Core.alike_perform hbefore (.restore m)).2
  rw [replay_append]
  exact (alike_play hreplaced hlater).machine_eq.symm

/-! ### All together -/

def Order.keyBounds : Action.Bounds := { Request.load.bounds with modes := (· ≠ .stopped) }

theorem Order.obey_bounded {A : (a : Action) → a.Answer → Prop} (program : List UInt8) :
    (obey program .load).Within A (Action.Bounded keyBounds) fun _ => True := by
  have hload : load.run.Within A (Action.Bounded keyBounds) (Blames fun _ => True) := by
    have hasks : keyBounds.asks := .inr ⟨.powerOn, .inr rfl⟩
    have hm (m : Machine) (hwell : m.WellFormed) : keyBounds.machines m := .inr ⟨rfl, hwell⟩
    exact load_within hasks rfl hm (fun _ => trivial) (fun _ => trivial) (fun _ _ => trivial) fun _ _ _ _ => trivial
  have hgoOn (before : Mode) : (goOn before).Within A (Action.Bounded keyBounds) fun _ => True := by
    unfold goOn
    split
    · exact resume_within (B := keyBounds) nofun
    · trivial
  have hreport (answer : Except DeskError Unit) :
      (report .load answer).Within A (Action.Bounded keyBounds) fun _ => True := by
    cases answer with
    | ok => trivial
    | error e => exact ⟨trivial, fun _ _ => trivial⟩
  rw [obey_eq, ofControl_load]
  refine Within.bind (P := fun _ => True) ?_ fun answer _ => hreport answer
  refine Within.bind (P := fun _ => True) ⟨trivial, fun _ _ => trivial⟩ fun before _ => ?_
  refine Within.bind (pause_within (B := keyBounds) nofun) fun _ _ => ?_
  refine Within.bind hload fun _ _ => ?_
  exact Within.bind (hgoOn before) fun _ _ => trivial

namespace Scene

variable {sc : Scenario} {s s' : Scene}

/-- The state file was loaded into the machine, and `during` is what has happened meanwhile.
* The run state is as it was, unless a run had ended before and did not look so and a machine was brought; then it is
  `stopped`.  A runner at work is still at work.
* If the file holds a machine, it was put in the place of the one there was, once; before and after there were steps and
  ticks, and nothing was copied or replaced.
* Otherwise there were steps and ticks alone. -/
structure Reloads (sc : Scenario) (s : Scene) (during : List Event) (s' : Scene) : Prop where
  mode_eq_iff :
    s'.console.board.mode = s.console.board.mode ↔ ¬ (s.console.Torn ∧ ∃ m, s.console.file.image = .ok m)
  stopped : s.console.Torn → ∀ m, s.console.file.image = .ok m → s'.console.board.mode = .stopped
  atWork : s.console.AtWork → s'.console.AtWork
  brings : ∀ m, s.console.file.image = .ok m → ∃ earlier who later,
    during = earlier ++ .replaced who m :: later ∧ deals earlier = [] ∧ deals later = [] ∧
      s'.console.machine =
        ((s.console.core s.console.processor).replaced sc.toSurroundings (beats earlier) m (beats later)).machine
  spares : ∀ e, s.console.file.image = .error e → deals during = [] ∧
    s'.console.machine = ((s.console.core s.console.processor).play sc.toSurroundings (beats during)).machine

/-- The events of the key are steady, but for those that replace the machine. -/
theorem Reloads.of_traced {during : List Event} (hpast : s'.past = s.past ++ during) (htraced : s.Traced sc s')
    (hstays : ∀ e ∈ during, e.Stays) (hends : ∀ e ∈ during, ¬ e.EndsRun) (hdeals : s.console.file.Deals (deals during))
    (hsame : ¬ (s.console.Torn ∧ ∃ m, s.console.file.image = .ok m) → s'.console.board.mode = s.console.board.mode)
    (hstopped : s.console.Torn → ∀ m, s.console.file.image = .ok m → s'.console.board.mode = .stopped)
    (hwork : s.console.AtWork → s'.console.AtWork) : s.Reloads sc during s' := by
  have hmachine : s'.console.machine =
      (replay sc.toSurroundings (s.console.core s.console.processor) during).machine := by
    obtain ⟨es, hes, htracks, -⟩ := htraced
    obtain rfl : during = es := List.append_cancel_left (hpast.symm.trans hes)
    exact htracks.machine_eq
  refine ⟨⟨?_, hsame⟩, hstopped, hwork, ?_, ?_⟩
  · rintro hmode ⟨htorn, m, hgood⟩
    exact htorn.mode (hmode.symm.trans (hstopped htorn m hgood))
  · intro m hgood
    rw [StateFile.Deals, hgood] at hdeals
    obtain ⟨who, hdeals⟩ := hdeals
    have hmem : .replaced who m ∈ deals during := hdeals ▸ List.mem_singleton_self _
    obtain ⟨earlier, later, rfl⟩ := List.append_of_mem (List.mem_of_mem_filter hmem)
    obtain ⟨hearlier, hlater⟩ : deals earlier = [] ∧ deals later = [] := by
      have hsplit : deals earlier ++ .replaced who m :: deals later = [.replaced who m] := by
        rw [← hdeals, deals_append]
        rfl
      have hlength := congrArg List.length hsplit
      simp only [List.length_append, List.length_cons, List.length_nil] at hlength
      exact ⟨List.length_eq_zero_iff.mp (by omega), List.length_eq_zero_iff.mp (by omega)⟩
    refine ⟨earlier, who, later, rfl, hearlier, hlater, hmachine.trans (machine_replay_replaced ?_ ?_)⟩
    · exact steady_of_stays (fun e he => hstays e (List.mem_append_left _ he)) hearlier
        fun e he => hends e (List.mem_append_left _ he)
    · exact steady_of_stays (fun e he => hstays e (List.mem_append_right _ (List.mem_cons_of_mem _ he))) hlater
        fun e he => hends e (List.mem_append_right _ (List.mem_cons_of_mem _ he))
  · intro e hbad
    rw [StateFile.Deals, hbad] at hdeals
    exact ⟨hdeals, hmachine.trans (machine_replay (steady_of_stays hstays hdeals hends))⟩

end Scene

namespace Order

variable {sc : Scenario} {s s' : Scene} {ds during : List Event} {r : Unit}

theorem obey_stays (program : List UInt8) (h : (obey program .load).Comes sc s r s')
    (hpast : s'.past = s.past ++ during) : ∀ e ∈ during, e.Stays := by
  have hthreads : ¬ keyBounds.threads := Request.gentle_load.threads
  have hprocessors (p : Processor) : ¬ keyBounds.processors p := by
    rintro ⟨_, ⟨⟩, -⟩
  have hgrants : Scene.Grants sc _ (Action.Bounded keyBounds) _ _ := Scene.grants_stays hthreads hprocessors s
  obtain ⟨-, es, hes, hstays⟩ :=
    (h.within hgrants (obey_bounded program) ⟨[], (List.append_nil _).symm, nofun⟩).resolve_left Scene.not_eventSince
  obtain rfl : during = es := List.append_cancel_left (hpast.symm.trans hes)
  exact hstays

theorem obey_traced (hkeeps : sc.Only Happening.KeepsMode) (program : List UInt8) (hrests : s.Rests ds)
    (h : (obey program .load).Comes sc s r s') : s.Traced sc s' :=
  h.kept (obey_smooth hkeeps program hrests) (.refl s) (fun h hmoves => h.moves hmoves)
    fun h hfits hact => h.acts hfits.1 hact

end Order

namespace Errand

variable {sc : Scenario}

/-- What has come about when the key was carried out. -/
theorem reloads_of_run (hapart : sc.Only Happening.Apart) (hkeeps : sc.Only Happening.KeepsMode) {program : List UInt8}
    {s s' : Scene} (hrests : s.Rests (deals s.past)) (hlives : s.console.runner ≠ .died) {turns : List Turn}
    (hrun : (⟨s, Order.obey program .load⟩ : Errand Unit).run sc turns = ⟨s', .done ()⟩) {during : List Event}
    (hpast : s'.past = s.past ++ during) (hends : ∀ e ∈ during, ¬ e.EndsRun) :
    (∃ before after s₁, turns = before ++ after ∧
      (⟨s, (Order.ofControl program .load).run⟩ : Errand (Except DeskError Unit)).run sc before =
        ⟨s₁, .done (s.console.file.image.map fun _ => ())⟩) ∧
      s.Reloads sc during s' := by
  have hquiet : ¬ Scene.EventSince Event.EndsRun s s' := by
    rintro ⟨es, hes, e, he, hX⟩
    obtain rfl : during = es := List.append_cancel_left (hpast.symm.trans hes)
    exact hends e he hX
  have hcomes := run_comes hapart hrun
  have htraced := Order.obey_traced hkeeps program hrests hcomes
  have hstays := Order.obey_stays program hcomes hpast
  rw [Order.obey_eq] at hrun
  obtain ⟨before, after, s₁, answer, hturns, hbefore, hafter⟩ := run_bind hrun
  have hkey := run_comes hapart hbefore
  have hreport := run_comes hapart hafter
  obtain ⟨hquiet₁, hquiet₂⟩ := Scene.not_eventSince_split hquiet hkey.grows hreport.grows
  obtain ⟨rfl, ⟨ds, hdeals, hrests₁⟩, hsame, hstopped, hwork⟩ :=
    Order.ofControl_load_settles hkeeps hkey hrests hlives hquiet₁
  -- to note a failure changes none of it
  have hreported : s₁.Steadies s' := hreport.steadies hkeeps (Order.report_switches _ _) hquiet₂
  have hmode : s'.console.board.mode = s₁.console.board.mode :=
    ((hreport.within (Scene.grants_mode hkeeps _) (Order.report_retains _ _ _) rfl).resolve_left hquiet₂).2
  have hds : deals during = ds := by
    obtain ⟨a, hstands⟩ := hreported.rests hrests₁
    have hall := hstands.deals
    rw [hpast, deals_append] at hall
    exact List.append_cancel_left hall
  refine ⟨⟨before, after, s₁, hturns, hbefore⟩, .of_traced hpast htraced hstays hends (hds ▸ hdeals) ?_ ?_ ?_⟩
  · exact fun hnot => hmode.trans (hsame hnot)
  · exact fun htorn m hgood => hmode.trans (hstopped htorn m hgood)
  · exact fun hwork₀ => hreported.atWork (hwork hwork₀)

variable {o : Office}

/-- **The load key**, in an office with any history, whatever the state file holds, while the clocks move.
* Under fair turns the desk comes to the end of it.
* If no run ends meanwhile, the load is answered as the file deserves, so never that the machine is busy, and machine
  and run state are as `Scene.Reloads` says: the run state is as it was, unless a run had ended before and did not look
  so, and a machine was brought.
* If the file holds no machine, a turn of the desk changes the run state and the journal at most. -/
theorem load_key (ho : o.Reachable) (hidle : o.task = none) (hapart : sc.Only Happening.Apart)
    (hkeeps : sc.Only Happening.KeepsMode) (hlives : o.console.runner ≠ .died) (program : List UInt8) :
    let pressed : Errand Unit := ⟨o.toScene, Order.obey program .load⟩
    (∀ σ, Fair σ → ∃ n s', pressed.along sc σ n = ⟨s', .done ()⟩) ∧
      (∀ turns s' during, pressed.run sc turns = ⟨s', .done ()⟩ → s'.past = o.past ++ during →
        (∀ e ∈ during, ¬ e.EndsRun) →
          (∃ before after s₁ answer, turns = before ++ after ∧
            (⟨o.toScene, (Order.ofControl program .load).run⟩ : Errand (Except DeskError Unit)).run sc before =
              ⟨s₁, .done answer⟩ ∧
            answer = o.console.file.image.map (fun _ => ()) ∧ answer ≠ .error .busy) ∧
          o.Reloads sc during s') ∧
      ∀ e, o.console.file.image = .error e → ∀ turns, let later := pressed.run sc turns
        ∃ mode journal, (later.advance sc .desk).toScene =
          ⟨{ later.console with board := { later.console.board with mode }, journal }, later.past⟩ := by
  intro pressed
  have hrests : o.Rests (deals o.past) := ho.rests hidle
  refine ⟨?_, ?_, ?_⟩
  · intro σ hfair
    obtain ⟨n, s', ⟨⟩, hend⟩ := ends_soon hapart hfair (fun _ _ h => h.2) (Order.obey_smooth hkeeps program hrests)
    exact ⟨n, s', hend⟩
  · intro turns s' during hrun hpast hends
    obtain ⟨⟨before, after, s₁, hturns, hanswer⟩, hreloads⟩ :=
      reloads_of_run hapart hkeeps hrests hlives hrun hpast hends
    refine ⟨⟨before, after, s₁, _, hturns, hanswer, rfl, ?_⟩, hreloads⟩
    intro hbusy
    cases himage : o.console.file.image with
    | ok m =>
      rw [himage] at hbusy
      cases hbusy
    | error e =>
      rw [himage] at hbusy
      cases hbusy
      exact StateFile.image_ne_busy himage
  · intro e hbad turns later
    have hstart : pressed.console.file = o.console.file := rfl
    rcases desk_turn hapart (Scene.grants_finds o.console.file) (Order.obey_switches program hbad) hstart
        (rfl : pressed.run sc turns = later) with hwaits | ⟨a, x, c, ha, hact, hdid⟩
    · exact ⟨later.console.board.mode, later.console.journal, congrArg Errand.toScene hwaits⟩
    · obtain ⟨hquiet, mode, journal, rfl, -⟩ := Console.act_of_switches ha hact
      refine ⟨mode, journal, hdid.trans ?_⟩
      rw [Scene.did_of_quiet hquiet]

def finished {α : Type} (e : Errand α) : Bool :=
  match e.rest with
  | .done _ => true
  | .act .. => false

theorem eq_of_finished {e : Errand Unit} (h : e.finished = true) : e = ⟨e.toScene, .done ()⟩ := by
  obtain ⟨s, p⟩ := e
  cases p with
  | done r => rfl
  | act a next => cases h

/-- The image of a machine that was just switched on. -/
def fresh : StateFile := .regular (Image.encode .powerOn)

theorem image_fresh : fresh.image = .ok .powerOn := by
  have hwell : Machine.powerOn.WellFormed := Board.wellFormed_reset (b := {}) (p := .powerOn) (by decide)
  exact StateFile.image_eq_ok_iff.mpr ⟨_, rfl, Image.decode_encode hwell⟩

/-- A program runs, and the state file holds that image. -/
def loadable : Office := Office.onDuty.run Office.alone [.file fresh]

/-- The load key was pressed, and everybody has taken a turn this many times. -/
def loading (o : Office) (n : Nat) : Errand Unit :=
  (⟨o.toScene, Order.obey [] .load⟩ : Errand Unit).run Office.alone (Office.rounds n)

theorem load_key_loadable :
    loadable.Reachable ∧ loadable.task = none ∧ loadable.console.board.mode = .running ∧ loadable.console.AtWork ∧
      loadable.console.file.image = .ok .powerOn ∧ (loading loadable 19).finished = true ∧
      ∃ earlier who later, (loading loadable 19).past = loadable.past ++ (earlier ++ .replaced who .powerOn :: later) ∧
        deals earlier = [] ∧ deals later = [] ∧ (loading loadable 19).console.board.mode = .running ∧
        (loading loadable 19).console.AtWork := by
  have honDuty : Office.onDuty.task = none := Option.isNone_iff_eq_none.mp Office.duties.1.1
  have hreachable : loadable.Reachable :=
    .run (.run (.new {}) rfl (Office.only_alone _) _) honDuty (Office.only_alone _) _
  obtain ⟨hidle, hfile, hboard, -⟩ := Office.run_file Office.alone honDuty fresh
  rw [← loadable] at hidle hfile hboard
  have himage : loadable.console.file.image = .ok .powerOn := (congrArg StateFile.image hfile).trans image_fresh
  have hmode : loadable.console.board.mode = .running := (congrArg Board.mode hboard).trans Office.duties.1.2.1
  obtain ⟨hwork, hfinished, hends⟩ :
      loadable.console.AtWork ∧ (loading loadable 19).finished = true ∧
        ∀ e ∈ (loading loadable 19).past.drop loadable.past.length, ¬ e.EndsRun := by decide +kernel
  obtain ⟨r, hlive, hstage⟩ := hwork.2
  have hlives : loadable.console.runner ≠ .died := by
    rw [hlive]
    simp
  have hrun : loading loadable 19 = ⟨(loading loadable 19).toScene, .done ()⟩ := eq_of_finished hfinished
  obtain ⟨during, hpast, -⟩ := (run_comes (Office.only_alone _) hrun).grows
  rw [hpast, List.drop_left] at hends
  obtain ⟨-, hloads, -⟩ := load_key hreachable hidle (Office.only_alone _) (Office.only_alone _) hlives []
  obtain ⟨-, hreloads⟩ := hloads _ _ during hrun hpast hends
  obtain ⟨earlier, who, later, rfl, hearlier, hlater, -⟩ := hreloads.brings _ himage
  have hnot : ¬ (loadable.console.Torn ∧ ∃ m, loadable.console.file.image = .ok m) := by
    rintro ⟨htorn, -⟩
    exact hstage (htorn.ended r hlive)
  exact ⟨hreachable, hidle, hmode, hwork, himage, hfinished, earlier, who, later, hpast, hearlier, hlater,
    (hreloads.mode_eq_iff.mpr hnot).trans hmode, hreloads.atWork hwork⟩

/-- A fault has ended the run between the look and the setting of a pause, and the machine looks paused. -/
def tornPause : Office :=
  (Office.failingAsked .pause 1).run Office.alone (.runner true :: .replicate 3 .desk ++ [.runner true])

/-- The same, where the state file holds that image. -/
def tornLoadable : Office := tornPause.run Office.alone [.file fresh]

/-- **The key does not leave every run state as it was.**  A pause is torn, and the machine looks paused; after the load
it looks stopped, although no run has ended meanwhile. -/
theorem torn_load :
    tornLoadable.Reachable ∧ tornLoadable.task = none ∧ tornLoadable.console.file.image = .ok .powerOn ∧
      tornLoadable.console.board.fault = some (.stackUnderflow 0x200) ∧ tornLoadable.console.runner ≠ .died ∧
      tornLoadable.console.board.mode = .paused ∧
      (loading tornLoadable 21).finished = true ∧
      (∀ e ∈ (loading tornLoadable 21).past.drop tornLoadable.past.length, ¬ e.EndsRun) ∧
      (loading tornLoadable 21).console.board.mode = .stopped := by
  obtain ⟨hnone, hends⟩ : tornPause.task.isNone = true ∧
      tornLoadable.console.board.fault = some (.stackUnderflow 0x200) ∧ tornLoadable.console.runner ≠ .died ∧
      tornLoadable.console.board.mode = .paused ∧ (loading tornLoadable 21).finished = true ∧
      (∀ e ∈ (loading tornLoadable 21).past.drop tornLoadable.past.length, ¬ e.EndsRun) ∧
      (loading tornLoadable 21).console.board.mode = .stopped := by decide +kernel
  have htorn : tornPause.task = none := Option.isNone_iff_eq_none.mp hnone
  have hreachable : tornPause.Reachable := by
    rw [tornPause, Office.failingAsked, ← Office.run_append]
    exact .run (.new {}) rfl (Office.only_alone _) _
  obtain ⟨hidle, hfile, -, -⟩ := Office.run_file Office.alone htorn fresh
  rw [← tornLoadable] at hidle hfile
  refine ⟨.run hreachable htorn (Office.only_alone _) _, hidle, ?_, hends⟩
  rw [hfile]
  exact image_fresh

end Errand

end ChipEight
