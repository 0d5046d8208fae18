import ChipEight.Proofs.Office.Errands
import ChipEight.Proofs.Office.Torn

/-!
# A load by a machine that is held

`load_state` finds a machine that is stopped, one that is held with a runner at work, or one whose run has ended
although it does not look stopped.

* `StateFile.image` : the machine that a state file holds, or what is wrong with it.
* `Action.Switches` : what the desk does when it touches neither the machine nor the threads.
* `Scene.Rests.cases` : what a desk at rest can find.
* `Procedure.Until` : a procedure that comes to an action.
* `Order.load_mode` : what a load does to the run state, which depends on who is at work.
* `Order.load_settles` : what it answers, and what it replaces.
-/

namespace ChipEight

open Procedure (single Within Comes)
open Scene (Rests)

/-! ### The state file -/

/-- The machine that the file holds, or what a load says about it. -/
def StateFile.image (f : StateFile) : Except DeskError Machine :=
  match f.read with
  | .error e => .error (.system e)
  | .ok bytes =>
    match Image.decode bytes with
    | .error d => .error (.invalidImage d)
    | .ok m => .ok m

namespace StateFile

variable {f : StateFile} {m : Machine} {e : DeskError}

theorem image_eq_ok_iff : f.image = .ok m ↔ ∃ bytes, f.read = .ok bytes ∧ Image.decode bytes = .ok m := by
  unfold image
  cases f.read with
  | error e => simp
  | ok bytes => cases hdecode : Image.decode bytes <;> simp [hdecode]

theorem image_ne_busy : f.image ≠ .error .busy := by
  unfold image
  split
  · nofun
  · split <;> nofun

def Deals (f : StateFile) (ds : List Event) : Prop :=
  match f.image with
  | .ok m => ∃ who, ds = [.replaced who m]
  | .error _ => ds = []

end StateFile

/-- Where nothing is disturbed, only the state file is to blame. -/
theorem Request.Fails.image_eq {f : StateFile} {e : DeskError} (h : Request.Fails (Action.Undisturbed f) .load e) :
    f.image = .error e := by
  unfold StateFile.image
  cases h with
  | refused hq => exact absurd hq Request.gentle_load.threads
  | busy hq hmode => exact absurd rfl hmode
  | unread hread =>
    have hread : f.read = _ := hread.symm
    rw [hread]
  | undecoded hread hdecode =>
    have hread : f.read = _ := hread.symm
    rw [hread]
    simp only [hdecode]
  | lost hlost => cases hlost

/-! ### Switching -/

/-- What the desk does when it touches neither the machine nor the threads. -/
def Action.Switches : Action → Prop
  | .readMode | .readFile => True
  | .setMode m => m ≠ .stopped
  | .note (.previousRunEnded _) => False
  | .note _ => True
  | _ => False

def Action.Retains (mode : Mode) (a : Action) : Prop := a.Switches ∧ ∀ m, a = .setMode m → m = mode

def Action.Finds (f : StateFile) : (a : Action) → a.Answer → Prop
  | .readFile, x => x = f.read
  | _, _ => True

def Action.Reads (mode : Mode) : (a : Action) → a.Answer → Prop
  | .readMode, m => m = mode
  | _, _ => True

/-- Nobody has to wait for it, and it changes the run state and the journal at most. -/
theorem Console.act_of_switches {a : Action} (ha : a.Switches) {c c' : Console} {x : a.Answer}
    (hact : c.act a = some (x, c')) :
    a.events x = [] ∧ ∃ mode journal, c' = { c with board := { c.board with mode }, journal } ∧
      (mode = c.board.mode ∨ a = .setMode mode ∧ mode ≠ .stopped) := by
  cases a with
  | readMode | readFile =>
    cases hact
    exact ⟨rfl, c.board.mode, c.journal, rfl, .inl rfl⟩
  | setMode m =>
    cases hact
    exact ⟨rfl, m, c.journal, rfl, .inr ⟨rfl, ha⟩⟩
  | note n =>
    cases hact
    cases n with
    | previousRunEnded f => exact ha.elim
    | _ => exact ⟨rfl, c.board.mode, _, rfl, .inl rfl⟩
  | _ => exact ha.elim

theorem Action.Switches.inert {a : Action} (h : a.Switches) : a.Inert := by
  cases a with
  | note n =>
    cases n with
    | previousRunEnded f => exact h.elim
    | _ => trivial
  | readMode | readFile | setMode => trivial
  | _ => exact h.elim

theorem Action.Switches.yields {a : Action} (h : a.Switches) (c : Console) : c.Yields a := by
  cases a with
  | collect | joinRunner | joinMetronome => exact h.elim
  | _ => trivial

namespace Order

variable {A : (a : Action) → a.Answer → Prop} {f : StateFile} {e : DeskError}

/-- A load of a file that holds no machine only looks at the run state and the file. -/
theorem load_switches (hbad : f.image = .error e) (mode : Mode) :
    load.run.Within (Action.Finds f) (Action.Retains mode) fun _ => True := by
  have hread : (do
      let bytes ← orSystemError (single .readFile)
      unpack bytes : Op Unit).run.Within (Action.Finds f) (Action.Retains mode) fun _ => True := by
    refine ⟨⟨trivial, nofun⟩, ?_⟩
    rintro (e' | bytes) hbytes
    · trivial
    · show (unpack bytes).run.Within _ _ _
      unfold unpack
      cases hdecode : Image.decode bytes with
      | error d => trivial
      | ok m =>
        have hgood : f.image = .ok m := StateFile.image_eq_ok_iff.mpr ⟨bytes, hbytes.symm, hdecode⟩
        cases hgood.symm.trans hbad
  refine ⟨⟨trivial, nofun⟩, ?_⟩
  rintro (_ | _ | _) _
  · exact hread
  · trivial
  · exact hread

end Order

namespace Scene

variable {sc : Scenario}

theorem grants_finds (f : StateFile) :
    Grants sc (Action.Finds f) Action.Switches (fun _ => False) fun s => s.console.file = f where
  moves h hmoves := .inr (hmoves.file_eq.trans h)
  acts {s a x c} h ha hact := by
    constructor
    · cases a with
      | readFile =>
        cases hact
        exact congrArg StateFile.read h
      | _ => trivial
    · obtain ⟨-, mode, journal, rfl, -⟩ := Console.act_of_switches ha hact
      exact h

/-- The run state stays, as long as no run ends and the desk sets no other. -/
theorem grants_mode (hkeeps : sc.Only Happening.KeepsMode) (mode : Mode) :
    Grants sc (Action.Reads mode) (Action.Retains mode) Event.EndsRun fun s => s.console.board.mode = mode where
  moves h hmoves := by
    cases hmoves with
    | step hlive hstage stage mode' rate journal hmode => exact .inr ((hmode hkeeps).trans h)
    | die => exact .inl ⟨.died, by simp, .inl rfl⟩
    | @fail r f => exact .inl ⟨.faulted f, by simp, .inr ⟨f, rfl⟩⟩
    | _ => exact .inr h
  acts {s a x c} h ha hact := by
    constructor
    · cases a with
      | readMode =>
        cases hact
        exact h
      | _ => trivial
    · obtain ⟨-, mode', journal, rfl, hmode⟩ := Console.act_of_switches ha.1 hact
      rcases hmode with hsame | ⟨hset, -⟩
      · exact hsame.trans h
      · exact ha.2 mode' hset

theorem grants_torn : Grants sc (fun _ _ => True) Action.Switches (fun _ => False) fun s => s.console.Torn where
  moves h hmoves := .inr (h.moves hmoves).1
  acts {s a x c} h ha hact := by
    obtain ⟨-, mode, journal, rfl, hmode⟩ := Console.act_of_switches ha hact
    refine ⟨trivial, ?_, h.attached, h.ended, h.replies⟩
    rcases hmode with rfl | ⟨-, hne⟩
    · exact h.mode
    · exact hne

end Scene

def Console.AtWork (c : Console) : Prop := c.board.mode ≠ .stopped ∧ ∃ r, c.runner = .live r ∧ r.stage ≠ .leaving

def Console.works (c : Console) : Bool :=
  match c.runner with
  | .live r => r.stage ≠ .leaving
  | _ => false

theorem Console.works_iff {c : Console} : c.works = true ↔ ∃ r, c.runner = .live r ∧ r.stage ≠ .leaving := by
  unfold works
  cases c.runner <;> simp

instance (c : Console) : Decidable c.AtWork :=
  decidable_of_iff (c.board.mode ≠ .stopped ∧ c.works = true) (and_congr_right' Console.works_iff)

theorem Scene.Serves.atWork {s : Scene} (h : s.Serves) : s.console.AtWork := by
  refine ⟨?_, h.runner⟩
  rw [h.mode]
  nofun

namespace Scene

variable {sc : Scenario} {s : Scene} {ds : List Event}

/-- A runner is at work until its run ends. -/
theorem grants_atWork (hkeeps : sc.Only Happening.KeepsMode) :
    Grants sc (fun _ _ => True) Action.Switches Event.EndsRun fun s => s.console.AtWork where
  moves {s c es} h hmoves := by
    obtain ⟨hmode, r, hlive, hstage⟩ := h
    cases hmoves with
    | @pass r' hlive' hstage' stage journal hstops =>
      exact .inr ⟨hmode, _, rfl, fun hleaves => hmode (hstops hleaves)⟩
    | copy hlive' => exact .inr ⟨hmode, r, hlive, hstage⟩
    | install hlive' hstage' => exact .inr ⟨hmode, _, rfl, hstage'⟩
    | step hlive' hstage' stage mode rate journal hmode' hstays =>
      refine .inr ⟨?_, _, rfl, hstays⟩
      show mode ≠ .stopped
      rwa [hmode' hkeeps]
    | die => exact .inl ⟨.died, by simp, .inl rfl⟩
    | @fail r f => exact .inl ⟨.faulted f, by simp, .inr ⟨f, rfl⟩⟩
    | leave hlive' hleaves =>
      cases hlive.symm.trans hlive'
      exact absurd hleaves hstage
    | tick | hush => exact .inr ⟨hmode, r, hlive, hstage⟩
  acts {s a x c} h ha hact := by
    obtain ⟨-, mode, journal, rfl, hmode⟩ := Console.act_of_switches ha hact
    refine ⟨trivial, ?_, h.2⟩
    rcases hmode with rfl | ⟨-, hne⟩
    · exact h.1
    · exact hne

/-- What a desk at rest can find: the machine is stopped, a runner is at work, a run has ended and does not look so, or
there is none. -/
theorem Rests.cases (h : s.Rests ds) :
    s.console.board.mode = .stopped ∨ s.console.AtWork ∨ s.console.Torn ∨ s.console.desk.attached = false := by
  by_cases hmode : s.console.board.mode = .stopped
  · exact .inl hmode
  by_cases hwork : ∃ r, s.console.runner = .live r ∧ r.stage ≠ .leaving
  · exact .inr (.inl ⟨hmode, hwork⟩)
  right; right
  obtain ⟨a, hstands⟩ := h
  cases a with
  | false => exact .inr hstands.attached
  | true =>
    refine .inl ⟨hmode, hstands.attached, ?_, hstands.replies⟩
    intro r hlive
    by_contra hstage
    exact hwork ⟨r, hlive, hstage⟩

end Scene

/-! ### A load where nobody is at work -/

def Action.Unattached : (a : Action) → a.Answer → Prop
  | .isAttached, attached => attached = false
  | _, _ => True

def Action.Solitary : Action → Prop
  | .readMode | .readFile | .isAttached | .replaceParked _ | .stopTone | .statePath | .note _ => True
  | _ => False

/-- The desk has a run, but nobody replies, and the state file is this one. -/
def Action.Forsaken (f : StateFile) : (a : Action) → a.Answer → Prop
  | .isAttached, attached => attached = true
  | .collect _, reply => reply = none
  | .readMode, m => m = .paused
  | .readFile, x => x = f.read
  | _, _ => True

def Action.Asks : Action → Prop
  | .isAttached | .post _ | .collect _ | .readMode | .readFile => True
  | _ => False

/-- As long as the answers are among `A`, the procedure does actions among `F` until it does this one. -/
def Procedure.Until {α : Type} (A : (a : Action) → a.Answer → Prop) (F : Action → Prop) (last : Action) :
    Procedure α → Prop
  | .done _ => False
  | .act a next => a = last ∨ F a ∧ ∀ x, A a x → (next x).Until A F last

theorem Procedure.Until.bind {α β : Type} {A : (a : Action) → a.Answer → Prop} {F : Action → Prop} {last : Action}
    {p : Procedure α} (h : p.Until A F last) (f : α → Procedure β) : (p >>= f).Until A F last := by
  induction p with
  | done r => exact h.elim
  | act a next ih => exact h.imp id fun ⟨ha, hnext⟩ => ⟨ha, fun x hx => ih x (hnext x hx)⟩

/-- The procedure has come to that action, and there is still something to do. -/
theorem Procedure.Comes.until {α : Type} {sc : Scenario} {A : (a : Action) → a.Answer → Prop}
    {F F' : Action → Prop} {last : Action} {Q : α → Prop} {J : Scene → Prop} {p : Procedure α} {s s' : Scene} {r : α}
    (h : p.Comes sc s r s') (hJ : Scene.Grants sc A F (fun _ => False) J) (hp : p.Until A F last)
    (hwithin : p.Within (fun _ _ => True) F' Q) (hs : J s) :
    ∃ s₁ x c q, J s₁ ∧ s₁.console.act last = some (x, c) ∧ Comes sc q (s₁.did last x c) r s' ∧
      Within (fun _ _ => True) F' Q q := by
  induction h with
  | done => exact hp.elim
  | @act a next s s₁ x c r s' hdrift hact hnext ih =>
    have hs₁ : J s₁ := (hJ.drifts hs hdrift).resolve_left Scene.not_eventSince
    rcases hp with rfl | ⟨ha, hp⟩
    · exact ⟨s₁, x, c, next x, hs₁, hact, hnext, hwithin.2 x trivial⟩
    · obtain ⟨hx, hs₂⟩ := hJ.acts hs₁ ha hact
      exact ih (hp x hx) (hwithin.2 x trivial) hs₂

namespace Order

variable {f : StateFile} {m : Machine}

theorem load_solitary : load.run.Within Action.Unattached Action.Solitary fun _ => True := by
  have htone : (liftM settleTone : Op Unit).run.Within Action.Unattached Action.Solitary fun _ => True := by
    refine ⟨trivial, ?_⟩
    rintro _ rfl
    exact ⟨trivial, fun _ _ => trivial⟩
  have hask (m : Machine) : (restoreHeld m).run.Within Action.Unattached Action.Solitary fun _ => True := by
    refine ⟨trivial, ?_⟩
    rintro _ rfl
    refine ⟨trivial, ?_⟩
    rintro _ rfl
    exact ⟨trivial, fun _ _ => htone⟩
  have hunpack (bytes : List UInt8) : (unpack bytes).run.Within Action.Unattached Action.Solitary fun _ => True := by
    unfold unpack
    cases Image.decode bytes with
    | error d => trivial
    | ok m =>
      refine Within.andThen (P := fun _ => True) ⟨trivial, ?_⟩ (fun _ _ => ?_) fun _ _ => trivial
      · rintro (_ | _ | _) _
        · exact hask m
        · trivial
        · exact hask m
      · exact ⟨trivial, fun _ _ => ⟨trivial, fun _ _ => trivial⟩⟩
  have hread : (do
      let bytes ← orSystemError (single .readFile)
      unpack bytes : Op Unit).run.Within Action.Unattached Action.Solitary fun _ => True := by
    refine ⟨trivial, ?_⟩
    rintro (e | bytes) _
    · trivial
    · exact hunpack bytes
  refine ⟨trivial, ?_⟩
  rintro (_ | _ | _) _
  · exact hread
  · trivial
  · exact hread

/-- Where nobody replies, a load of a file that holds a machine ends the run. -/
theorem load_until (hgood : f.image = .ok m) :
    load.run.Until (Action.Forsaken f) Action.Asks (.setMode .stopped) := by
  obtain ⟨bytes, hread, hdecode⟩ := StateFile.image_eq_ok_iff.mp hgood
  have hend {α : Type} {next : Bool → Procedure α}
      (hnext : (next true).Until (Action.Forsaken f) Action.Asks (.setMode .stopped)) :
      (Procedure.act .isAttached next).Until (Action.Forsaken f) Action.Asks (.setMode .stopped) := by
    refine .inr ⟨trivial, ?_⟩
    rintro _ rfl
    exact hnext
  have hrestore : (restore m).run.Until (Action.Forsaken f) Action.Asks (.setMode .stopped) := by
    refine .inr ⟨trivial, ?_⟩
    rintro _ rfl
    refine hend (.inr ⟨trivial, ?_⟩)
    rintro (_ | ticket) -
    · exact hend (.inl rfl)
    · refine .inr ⟨trivial, ?_⟩
      rintro _ rfl
      exact hend (.inl rfl)
  refine .inr ⟨trivial, ?_⟩
  rintro _ rfl
  refine .inr ⟨trivial, ?_⟩
  rintro _ rfl
  rw [hread]
  show (unpack bytes).run.Until _ _ _
  unfold unpack
  rw [hdecode]
  exact hrestore.bind _

end Order

namespace Scene

variable {sc : Scenario}

/-- Where there is no run, only the desk can set the run state. -/
theorem grants_solitary (mode : Mode) :
    Grants sc Action.Unattached Action.Solitary (fun _ => False) fun s =>
      s.console.desk.attached = false ∧ s.console.runner = .none ∧ s.console.board.mode = mode where
  moves {s c es} h hmoves := by
    obtain ⟨hattached, hrunner, hmode⟩ := h
    obtain ⟨hsame, -, -⟩ := hmoves.of_ended (by rw [hrunner]; nofun)
    exact .inr ⟨(congrArg Desk.attached hmoves.desk_eq).trans hattached, (same_of_no_runner hrunner hmoves).1,
      hsame.trans hmode⟩
  acts {s a x c} h ha hact := by
    obtain ⟨hattached, hrunner, hmode⟩ := h
    cases a with
    | isAttached =>
      cases hact
      exact ⟨hattached, hattached, hrunner, hmode⟩
    | readMode | readFile | replaceParked | stopTone | statePath | note =>
      cases hact
      exact ⟨trivial, hattached, hrunner, hmode⟩
    | _ => exact ha.elim

/-- Where a run has ended and does not look so, nobody replies. -/
theorem grants_forsaken (f : StateFile) :
    Grants sc (Action.Forsaken f) Action.Asks (fun _ => False) fun s =>
      s.console.Torn ∧ s.console.board.mode = .paused ∧ s.console.file = f where
  moves {s c es} h hmoves := by
    obtain ⟨htorn, hmode, hfile⟩ := h
    obtain ⟨htorn', hsame⟩ := htorn.moves hmoves
    exact .inr ⟨htorn', hsame.trans hmode, hmoves.file_eq.trans hfile⟩
  acts {s a x c} h ha hact := by
    obtain ⟨htorn, hmode, hfile⟩ := h
    cases a with
    | isAttached =>
      cases hact
      exact ⟨htorn.attached, htorn, hmode, hfile⟩
    | readMode =>
      cases hact
      exact ⟨hmode, htorn, hmode, hfile⟩
    | readFile =>
      cases hact
      exact ⟨congrArg StateFile.read hfile, htorn, hmode, hfile⟩
    | post j =>
      rcases Console.of_post hact with ⟨r, -, -, rfl⟩ | ⟨-, -, rfl⟩
      · exact ⟨trivial, ⟨htorn.mode, htorn.attached, htorn.ended, htorn.replies⟩, hmode, hfile⟩
      · exact ⟨trivial, htorn, hmode, hfile⟩
    | collect ticket =>
      obtain ⟨hmisses, htorn'⟩ := htorn.seeks (a := .collect ticket) trivial hact
      have hspared : s.console.Spared (.collect ticket) c := (Console.footprint_of_act hact).toSpared
      refine ⟨hmisses, htorn', ?_, ?_⟩
      · exact (hspared.mode.resolve_right (by simp)).trans hmode
      · exact (hspared.file.resolve_right (by simp)).trans hfile
    | _ => exact ha.elim

theorem grants_halted {B : Action.Bounds} (hmodes : ∀ m, ¬ B.modes m) (hthreads : ¬ B.threads) :
    Grants sc (fun _ _ => True) (Action.Bounded B) (fun _ => False) fun s => s.console.Halted where
  moves h hmoves := .inr (h.moves hmoves)
  acts h ha hact := ⟨trivial, h.acts ha hmodes hthreads hact⟩

section

variable {A A' : (a : Action) → a.Answer → Prop} {F F' : Action → Prop} {X X' : Event → Prop} {J J' : Scene → Prop}

theorem Grants.and (h : Grants sc A F X J) (h' : Grants sc A' F X J') :
    Grants sc (fun a x => A a x ∧ A' a x) F X fun s => J s ∧ J' s where
  moves hs hmoves := by
    rcases h.moves hs.1 hmoves with hX | hJ
    · exact .inl hX
    · exact (h'.moves hs.2 hmoves).imp id fun hJ' => ⟨hJ, hJ'⟩
  acts hs ha hact := by
    obtain ⟨hx, hJ⟩ := h.acts hs.1 ha hact
    obtain ⟨hx', hJ'⟩ := h'.acts hs.2 ha hact
    exact ⟨⟨hx, hx'⟩, hJ, hJ'⟩

theorem Grants.mono (h : Grants sc A F X J) (hF : ∀ a, F' a → F a) (hX : ∀ e, X e → X' e) : Grants sc A F' X' J where
  moves hs hmoves := (h.moves hs hmoves).imp (fun ⟨e, he, hXe⟩ => ⟨e, he, hX e hXe⟩) id
  acts hs ha hact := h.acts hs (hF _ ha) hact

end

end Scene

/-! ### What a load leaves -/

namespace Order

variable {sc : Scenario} {s s' : Scene} {ds : List Event} {answer : Except DeskError Unit} {m : Machine} {e : DeskError}

theorem load_stopped (hkeeps : sc.Only Happening.KeepsMode) (h : load.run.Comes sc s answer s')
    (hmode : s.console.board.mode = .stopped) : s'.console.board.mode = .stopped := by
  have htame : load.run.Tame := Procedure.tame_of_within (load_blames _) fun _ => id
  exact ((h.within (Office.grants_stopped hkeeps) htame.halts hmode).resolve_left Scene.not_eventSince).2

theorem load_serves (hkeeps : sc.Only Happening.KeepsMode) (h : load.run.Comes sc s answer s') (hrests : s.Rests ds)
    (hmode : s.console.board.mode = .paused) (hwork : s.console.AtWork)
    (hquiet : ¬ Scene.EventSince Event.EndsRun s s') : s'.Serves := by
  have hserves : s.Serves := Scene.serves_of_rests hrests hmode hwork.2
  exact ((h.within (Scene.grants_serves hkeeps) load_light hserves).resolve_left hquiet).2

theorem load_unattached (h : load.run.Comes sc s answer s') (hrests : s.Rests ds)
    (hattached : s.console.desk.attached = false) : s'.console.board.mode = s.console.board.mode := by
  obtain ⟨a, hstands⟩ := hrests
  obtain rfl : a = false := hstands.attached.symm.trans hattached
  have hnone : s.console.runner = .none := Thread.here_eq_false.mp hstands.runner
  have hwithin := h.within (Scene.grants_solitary s.console.board.mode) load_solitary ⟨hattached, hnone, rfl⟩
  exact (hwithin.resolve_left Scene.not_eventSince).2.2.2

theorem load_unread (hkeeps : sc.Only Happening.KeepsMode) (h : load.run.Comes sc s answer s')
    (hbad : s.console.file.image = .error e) (hquiet : ¬ Scene.EventSince Event.EndsRun s s') :
    s'.console.board.mode = s.console.board.mode := by
  have hmode := Scene.grants_mode hkeeps s.console.board.mode
  have hfile : Scene.Grants sc (Action.Finds s.console.file) (Action.Retains s.console.board.mode) Event.EndsRun _ :=
    (Scene.grants_finds s.console.file).mono (fun _ ha => ha.1) fun _ => False.elim
  have hwithin : load.run.Within (fun a x => a.Finds s.console.file x ∧ a.Reads s.console.board.mode x)
      (Action.Retains s.console.board.mode) fun _ => True :=
    (load_switches hbad s.console.board.mode).mono (fun _ _ hx => hx.1) (fun _ h => h) fun _ h => h
  exact ((h.within (hfile.and hmode) hwithin ⟨rfl, rfl⟩).resolve_left hquiet).2.2

theorem load_torn (h : load.run.Comes sc s answer s') (htorn : s.console.Torn) (hmode : s.console.board.mode = .paused)
    (hgood : s.console.file.image = .ok m) : s'.console.board.mode = .stopped := by
  obtain ⟨s₁, x, c, rest, ⟨htorn₁, -⟩, hact, hrest, hwithin⟩ :=
    h.until (Scene.grants_forsaken s.console.file) (load_until hgood) (load_blames _) ⟨htorn, hmode, rfl⟩
  have hhalted : (s₁.did (.setMode .stopped) x c).console.Halted := htorn₁.halted hact
  have hgrants : Scene.Grants sc _ (Action.Bounded Request.load.bounds) _ _ :=
    Scene.grants_halted (fun _ => id) Request.gentle_load.threads
  exact ((hrest.within hgrants hwithin hhalted).resolve_left Scene.not_eventSince).2.mode

/-- **What a load does to the run state** of a machine that does not run, if no run ends meanwhile.  It leaves it alone,
unless the run had ended before and did not look so and a machine is brought; then the machine is stopped.  A runner at
work is still at work. -/
theorem load_mode (hkeeps : sc.Only Happening.KeepsMode) (h : load.run.Comes sc s answer s') (hrests : s.Rests ds)
    (hheld : s.console.board.mode ≠ .running) (hquiet : ¬ Scene.EventSince Event.EndsRun s s') :
    (¬ (s.console.Torn ∧ ∃ m, s.console.file.image = .ok m) → s'.console.board.mode = s.console.board.mode) ∧
      (s.console.Torn → ∀ m, s.console.file.image = .ok m → s'.console.board.mode = .stopped) ∧
      (s.console.AtWork → s'.console.AtWork) := by
  have hpaused (hne : s.console.board.mode ≠ .stopped) : s.console.board.mode = .paused := by
    cases hmode : s.console.board.mode with
    | stopped => exact absurd hmode hne
    | running => exact absurd hmode hheld
    | paused => rfl
  have hserves (hwork : s.console.AtWork) : s'.Serves := load_serves hkeeps h hrests (hpaused hwork.1) hwork hquiet
  refine ⟨?_, ?_, fun hwork => (hserves hwork).atWork⟩
  · intro hnot
    rcases hrests.cases with hstopped | hwork | htorn | hattached
    · exact (load_stopped hkeeps h hstopped).trans hstopped.symm
    · exact (hserves hwork).mode.trans (hpaused hwork.1).symm
    · cases himage : s.console.file.image with
      | error e => exact load_unread hkeeps h himage hquiet
      | ok m => exact absurd ⟨htorn, m, himage⟩ hnot
    · exact load_unattached h hrests hattached
  · intro htorn m hgood
    exact load_torn h htorn (hpaused htorn.mode) hgood

/-- **What a load answers**, if no runner dies: what the file is good for.  It replaces the machine if the file holds
one, and nothing else. -/
theorem load_settles (hkeeps : sc.Only Happening.KeepsMode) (h : load.run.Comes sc s answer s') (hrests : s.Rests ds)
    (hheld : s.console.board.mode ≠ .running) (hlives : s.console.runner ≠ .died)
    (hquiet : ¬ Scene.EventSince Event.EndsRun s s') :
    answer = s.console.file.image.map (fun _ => ()) ∧ ∃ ds', s.console.file.Deals ds' ∧ s'.Rests (ds ++ ds') := by
  obtain ⟨s₁, hQ, hdrift⟩ := h.secured (load_secures rfl hrests)
  have hundisturbed : Scene.Undisturbed s.console.file s := ⟨hheld, rfl, hlives⟩
  have hwithin := h.within (Scene.grants_undisturbed hkeeps Request.gentle_load s.console.file) (load_blames _)
    hundisturbed
  obtain ⟨hblames, -⟩ := hwithin.resolve_left fun ⟨es, hes, e, he, hdied⟩ => hquiet ⟨es, hes, e, he, .inl hdied⟩
  cases answer with
  | ok u =>
    obtain ⟨who, m, bytes, hread, hdecode, hrests₁⟩ := hQ
    have hgood : s.console.file.image = .ok m := StateFile.image_eq_ok_iff.mpr ⟨bytes, hread, hdecode⟩
    refine ⟨by rw [hgood]; rfl, [.replaced who m], ?_, Scene.firm_rests.drifts hrests₁ hdrift⟩
    rw [StateFile.Deals, hgood]
    exact ⟨who, rfl⟩
  | error e =>
    have hbad : s.console.file.image = .error e := (hblames e rfl).image_eq
    refine ⟨by rw [hbad]; rfl, [], ?_, ?_⟩
    · rw [StateFile.Deals, hbad]
    · rw [List.append_nil]
      exact Scene.firm_rests.drifts hQ.2 hdrift

end Order

end ChipEight
