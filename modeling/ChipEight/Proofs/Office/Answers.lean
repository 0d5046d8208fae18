import ChipEight.Proofs.Image.RoundTrip
import ChipEight.Proofs.Office.Birth

/-!
# What a request can be answered

What can be read off a method of `Machine` before it is carried out, and how the desk comes to an answer.

* `Procedure.Within` : as long as the answers of its actions are among `A`, the actions of a procedure are among `F` and
  its result is among `Q`.
* `Request.Fails` : the errors of every request, each with the answer that is to blame for it.
* `Order.request_within` : there are no others.
* `Office.run_past` : nobody looks at the past.
* `Office.Answers` : the desk is about to answer a request; `Office.answers_of_answer?` reads that off an office.
* `Scene.Grants`, `Office.within_of_asks` : as long as what a procedure relies on is kept, it is answered as it allows.
-/

namespace ChipEight

/-! ### Procedures -/

namespace Procedure

variable {α β : Type} {A A' : (a : Action) → a.Answer → Prop} {F F' : Action → Prop}

/-- As long as the answers are among `A`, the actions are among `F` and the result is among `Q`. -/
def Within (A : (a : Action) → a.Answer → Prop) (F : Action → Prop) (Q : α → Prop) : Procedure α → Prop
  | .done r => Q r
  | .act a next => F a ∧ ∀ x, A a x → (next x).Within A F Q

namespace Within

theorem mono {p : Procedure α} {Q Q' : α → Prop} (h : p.Within A F Q) (hA : ∀ a x, A' a x → A a x)
    (hF : ∀ a, F a → F' a) (hQ : ∀ r, Q r → Q' r) : p.Within A' F' Q' := by
  induction p with
  | done r => exact hQ r h
  | act a next ih =>
    refine ⟨hF a h.1, ?_⟩
    intro x hx
    exact ih x (h.2 x (hA a x hx))

theorem bind {p : Procedure α} {f : α → Procedure β} {P : α → Prop} {Q : β → Prop} (h : p.Within A F P)
    (hf : ∀ r, P r → (f r).Within A F Q) : (p >>= f).Within A F Q := by
  induction p with
  | done r => exact hf r h
  | act a next ih =>
    refine ⟨h.1, ?_⟩
    intro x hx
    exact ih x (h.2 x hx)

theorem andThen {o : Order.Op α} {f : α → Order.Op β} {P : Except DeskError α → Prop} {Q : Except DeskError β → Prop}
    (h : o.run.Within A F P) (hok : ∀ r, P (.ok r) → (f r).run.Within A F Q)
    (herror : ∀ e, P (.error e) → Q (.error e)) : (o >>= f).run.Within A F Q := by
  apply Within.bind (p := o.run) h
  intro r hr
  cases r with
  | ok r => exact hok r hr
  | error e => exact herror e hr

theorem lifted {p : Procedure α} {P : α → Prop} {Q : Except DeskError α → Prop} (h : p.Within A F P)
    (hQ : ∀ r, P r → Q (.ok r)) : (liftM p : Order.Op α).run.Within A F Q :=
  Within.bind (p := p) h hQ

theorem lift {p : Procedure α} {f : α → Order.Op β} {P : α → Prop} {Q : Except DeskError β → Prop}
    (h : p.Within A F P) (hf : ∀ r, P r → (f r).run.Within A F Q) :
    ((liftM p : Order.Op α) >>= f).run.Within A F Q := by
  apply Within.bind (p := (liftM p : Order.Op α).run) (P := fun r => ∃ x, r = .ok x ∧ P x)
  · exact h.lifted fun r hr => ⟨r, rfl, hr⟩
  · rintro _ ⟨x, rfl, hx⟩
    exact hf x hx

end Within

/-- On the way of a procedure that keeps to `F`, every action does. -/
theorem Leads.within {sc : Scenario} {D : Scene → Action → Prop} {G : Procedure α → Scene → Prop} {p : Procedure α}
    {s : Scene} {Q : α → Prop} (h : p.Leads sc D G s) (hp : p.Within (fun _ _ => True) F Q) :
    p.Leads sc (fun s a => D s a ∧ F a) G s := by
  induction h with
  | here h => exact .here h
  | act hfits _ ih =>
    refine .act (fun s' hdrift => ⟨hfits s' hdrift, hp.1⟩) ?_
    intro s' hdrift x c hact
    exact ih s' hdrift x c hact (hp.2 x trivial)

end Procedure

/-! ### Orders -/

/-- What an order may set, make, put in place and write. -/
structure Action.Bounds where
  /-- The run states, `stopped` apart, that it may set. -/
  modes : Mode → Prop := fun _ => False
  /-- Whether it may make threads. -/
  threads : Prop := False
  /-- Whether it may send jobs to the runner. -/
  asks : Prop := False
  /-- The processors that it may park, for which it may clear the board. -/
  processors : Processor → Prop := fun _ => False
  /-- The machines that it may put in the place of the one there is. -/
  machines : Machine → Prop := fun _ => False
  /-- Whether it may write the state file. -/
  writes : Prop := False
  /-- Whether it may read the state file. -/
  reads : Prop := False

/-- The action keeps to the bounds. -/
def Action.Bounded (B : Action.Bounds) : Action → Prop
  | .setMode s => s = .stopped ∨ B.modes s
  | .spawnRunner | .spawnMetronome => B.threads
  | .park p => B.processors p
  | .resetBoard => ∃ p, B.processors p
  | .post .capture | .collect _ => B.asks
  | .post (.restore m) => B.asks ∧ B.machines m
  | .replaceParked m => B.machines m
  | .createFile | .appendFile _ => B.writes
  | .readFile => B.reads
  | _ => True

def Action.Held : (a : Action) → a.Answer → Prop
  | .readMode, s => s ≠ .running
  | _, _ => True

def Request.Sets (q : Request) (s : Mode) : Prop :=
  match q with
  | .reset _ | .start | .resume => s = .running
  | .pause => s = .paused
  | _ => False

/-- A request that is to make the machine run. -/
def Request.Starts (q : Request) : Prop := q = .start ∨ ∃ program, q = .reset program

/-- The bounds of a request: a restore brings its machine, and a load one that was saved. -/
def Request.bounds (q : Request) : Action.Bounds where
  modes := q.Sets
  threads := q.Starts
  asks := q.Copies ∨ ∃ m, q.Replaces m
  processors p := ∃ program, q = .reset program ∧ Processor.withProgram? program = some p
  machines m := q = .restore m ∨ q = .load ∧ m.WellFormed
  writes := q = .save
  reads := q = .load

/-- The errors of a request, each with the answer of an action that is to blame for it. -/
inductive Request.Fails (A : (a : Action) → a.Answer → Prop) : Request → DeskError → Prop
  | tooLarge {program : List UInt8} (hlarge : Memory.programRoom < program.length) :
    Fails A (.reset program) (.romTooLarge program.length Memory.programRoom)
  | refused {q : Request} (hq : q.Starts) (hrefused : A .spawnRunner false ∨ A .spawnMetronome false) :
    Fails A q (.system .tryAgain)
  | busy {q : Request} {m : Machine} (hq : q.Replaces m) (hmode : A .readMode .running) : Fails A q .busy
  | unread {e : SystemError} (hread : A .readFile (.error e)) : Fails A .load (.system e)
  | undecoded {bytes : List UInt8} {d : Image.Defect} (hread : A .readFile (.ok bytes))
    (hdecode : Image.decode bytes = .error d) : Fails A .load (.invalidImage d)
  | unwritten {e : SystemError} (hwrite : A .createFile (.error e) ∨ ∃ bytes, A (.appendFile bytes) (.error e)) :
    Fails A .save (.system e)
  | told {f : Fault} (hpending : A .takePending (some f)) : Fails A .stop (.fault f)
  | lost {q : Request} (hlost : A .joinRunner false) : Fails A q .disconnected

namespace Order

open Procedure (single Within)

variable {α β : Type} {A : (a : Action) → a.Answer → Prop} {B : Action.Bounds} {C : DeskError → Prop}

def Blames (C : DeskError → Prop) (answer : Except DeskError α) : Prop := ∀ e, answer = .error e → C e

theorem blames_ok (r : α) : Blames C (.ok r) := nofun

theorem blames_error {e : DeskError} (h : C e) : Blames C (.error e : Except DeskError α) := by
  rintro _ ⟨⟩
  exact h

theorem Blames.elsewhere {e : DeskError} (h : Blames C (.error e : Except DeskError α)) :
    Blames C (.error e : Except DeskError β) := blames_error (h e rfl)

theorem closeRun_within {whole : Bool} (hlost : whole = false → C .disconnected) :
    (closeRun whole).run.Within A (Action.Bounded B) (Blames C) := by
  cases whole with
  | false =>
    refine ⟨trivial, ?_⟩
    intro _ _
    exact blames_error (hlost rfl)
  | true =>
    refine ⟨trivial, ?_⟩
    rintro (_ | f) _
    · exact ⟨trivial, fun _ _ => blames_ok ()⟩
    · exact ⟨trivial, fun _ _ => ⟨trivial, fun _ _ => blames_ok ()⟩⟩

theorem endRun_within (hlost : A .joinRunner false → C .disconnected) :
    endRun.run.Within A (Action.Bounded B) (Blames C) := by
  refine ⟨.inl rfl, fun _ _ => ⟨trivial, ?_⟩⟩
  rintro (_ | _) _
  · exact blames_ok ()
  refine ⟨trivial, fun _ _ => ⟨trivial, ?_⟩⟩
  intro whole hwhole
  have hclose : (closeRun whole).run.Within A (Action.Bounded B) (Blames C) := by
    apply closeRun_within
    rintro rfl
    exact hlost hwhole
  refine ⟨trivial, ?_⟩
  rintro (_ | _) _
  · exact ⟨trivial, fun _ _ => hclose⟩
  · exact hclose

theorem settleTone_within : settleTone.Within A (Action.Bounded B) fun _ => True := by
  have htone (a : Action) (ha : a.Bounded B) (next : a.Answer → Unit) :
      Procedure.Within A (Action.Bounded B) (fun _ => True) (.act a fun x => .done (next x)) :=
    ⟨ha, fun _ _ => trivial⟩
  refine ⟨trivial, ?_⟩
  rintro (_ | _) _
  · exact htone .stopTone trivial id
  refine ⟨trivial, ?_⟩
  intro sound _
  change Procedure.Within A (Action.Bounded B) _ (if 0 < sound then single .startTone else single .stopTone)
  split
  · exact htone .startTone trivial id
  · exact htone .stopTone trivial id

theorem accompany_within (hthreads : B.threads) (hrefused : A .spawnMetronome false → C (.system .tryAgain)) :
    accompany.run.Within A (Action.Bounded B) (Blames C) := by
  refine ⟨hthreads, ?_⟩
  rintro (_ | _) hmade
  · refine ⟨.inl rfl, fun _ _ => ⟨trivial, ?_⟩⟩
    intro _ _
    exact blames_error (hrefused hmade)
  · refine ⟨trivial, ?_⟩
    intro _ _
    refine Within.lift settleTone_within fun _ _ => ⟨trivial, ?_⟩
    intro _ _
    exact ⟨trivial, fun _ _ => blames_ok ()⟩

theorem takeUp_within (hrun : B.modes .running) (hthreads : B.threads)
    (hrefused : A .spawnRunner false ∨ A .spawnMetronome false → C (.system .tryAgain)) :
    takeUp.run.Within A (Action.Bounded B) (Blames C) := by
  refine ⟨trivial, fun _ _ => ⟨.inr hrun, fun _ _ => ⟨hthreads, ?_⟩⟩⟩
  rintro (_ | _) hmade
  · refine ⟨.inl rfl, ?_⟩
    intro _ _
    exact blames_error (hrefused (.inl hmade))
  · exact accompany_within hthreads fun hmade => hrefused (.inr hmade)

theorem start_within (hrun : B.modes .running) (hthreads : B.threads) (hlost : A .joinRunner false → C .disconnected)
    (hrefused : A .spawnRunner false ∨ A .spawnMetronome false → C (.system .tryAgain)) :
    start.run.Within A (Action.Bounded B) (Blames C) := by
  have htakeUp := takeUp_within hrun hthreads hrefused
  refine ⟨trivial, ?_⟩
  rintro (_ | _) _
  · exact htakeUp
  refine ⟨trivial, ?_⟩
  rintro (_ | _ | _) _
  · exact Within.andThen (endRun_within hlost) (fun _ _ => htakeUp) fun _ he => he
  · exact blames_ok ()
  · exact blames_ok ()

theorem reset_within {program : List UInt8} (hrun : B.modes .running) (hthreads : B.threads)
    (hpark : ∀ p, Processor.withProgram? program = some p → B.processors p)
    (hlost : A .joinRunner false → C .disconnected)
    (hlarge : Memory.programRoom < program.length → C (.romTooLarge program.length Memory.programRoom))
    (hrefused : A .spawnRunner false ∨ A .spawnMetronome false → C (.system .tryAgain)) :
    (reset program).run.Within A (Action.Bounded B) (Blames C) := by
  cases hp : Processor.withProgram? program with
  | none =>
    have hlong : Memory.programRoom < program.length := by
      by_contra hfits
      simp [Processor.withProgram?, Nat.le_of_not_lt hfits] at hp
    unfold reset
    rw [hp]
    exact blames_error (hlarge hlong)
  | some p =>
    have hinstall : (install program p).run.Within A (Action.Bounded B) (Blames C) :=
      ⟨hpark p hp, fun _ _ => ⟨⟨p, hpark p hp⟩, fun _ _ => ⟨trivial, fun _ _ => start_within hrun hthreads hlost hrefused⟩⟩⟩
    have htell : (tellAndInstall program p).run.Within A (Action.Bounded B) (Blames C) := by
      refine ⟨trivial, ?_⟩
      rintro (_ | f) _
      · exact hinstall
      · exact ⟨trivial, fun _ _ => hinstall⟩
    unfold reset
    rw [hp]
    refine Within.lift (p := endRun.run) (endRun_within hlost) ?_
    rintro (e | _) _
    · exact ⟨trivial, fun _ _ => htell⟩
    · exact htell

theorem stop_within (hlost : A .joinRunner false → C .disconnected)
    (htold : ∀ f, A .takePending (some f) → C (.fault f)) : stop.run.Within A (Action.Bounded B) (Blames C) := by
  refine Within.andThen (endRun_within hlost) (fun _ _ => ⟨trivial, ?_⟩) fun _ he => he
  rintro (_ | f) hpending
  · exact blames_ok ()
  · exact blames_error (htold f hpending)

theorem pause_within (hpause : B.modes .paused) : pause.Within A (Action.Bounded B) fun _ => True := by
  refine ⟨trivial, ?_⟩
  rintro (_ | _ | _) _
  · trivial
  · exact ⟨.inr hpause, fun _ _ => ⟨trivial, fun _ _ => trivial⟩⟩
  · trivial

theorem resume_within (hrun : B.modes .running) : resume.Within A (Action.Bounded B) fun _ => True := by
  refine ⟨trivial, ?_⟩
  rintro (_ | _ | _) _
  · trivial
  · trivial
  · exact ⟨.inr hrun, fun _ _ => ⟨trivial, fun _ _ => trivial⟩⟩

theorem ask_within {j : Job} (hasks : B.asks) (hj : (Action.post j).Bounded B) :
    (ask j).Within A (Action.Bounded B) fun _ => True := by
  refine ⟨trivial, ?_⟩
  rintro (_ | _) _
  · trivial
  refine ⟨hj, ?_⟩
  rintro (_ | ticket) _
  · trivial
  · exact ⟨hasks, fun _ _ => trivial⟩

theorem alone_within {o : Op β} (hlost : A .joinRunner false → C .disconnected)
    (ho : o.run.Within A (Action.Bounded B) (Blames C)) :
    (do if ← single .isAttached then endRun
        o : Op β).run.Within A (Action.Bounded B) (Blames C) := by
  refine ⟨trivial, ?_⟩
  rintro (_ | _) _
  · exact ho
  · exact Within.andThen (endRun_within hlost) (fun _ _ => ho) fun _ he => he.elsewhere

theorem capture_within (hasks : B.asks) (hlost : A .joinRunner false → C .disconnected) :
    capture.run.Within A (Action.Bounded B) (Blames C) := by
  have hparked : (single .captureParked : Procedure Machine).Within A (Action.Bounded B) fun _ => True :=
    ⟨trivial, fun _ _ => trivial⟩
  refine Within.lift (ask_within (j := .capture) hasks hasks) ?_
  rintro (_ | ⟨m⟩ | _) _
  · exact alone_within hlost (hparked.lifted fun _ _ => blames_ok _)
  · exact blames_ok m
  · exact alone_within hlost (hparked.lifted fun _ _ => blames_ok _)

/-- What a restore does when it has seen that the machine is not running. -/
def restoreHeld (m : Machine) : Op Unit := do
  if let some .restored ← ask (.restore m) then
    settleTone
    return
  if ← single .isAttached then endRun
  single (.replaceParked m)
  settleTone

theorem restore_within {m : Machine} (hasks : B.asks) (hm : B.machines m) (hbusy : A .readMode .running → C .busy)
    (hlost : A .joinRunner false → C .disconnected) : (restore m).run.Within A (Action.Bounded B) (Blames C) := by
  have hsettle : (liftM settleTone : Op Unit).run.Within A (Action.Bounded B) (Blames C) :=
    settleTone_within.lifted fun _ _ => blames_ok _
  have hparked : (do single (.replaceParked m); settleTone : Op Unit).run.Within A (Action.Bounded B) (Blames C) :=
    ⟨hm, fun _ _ => hsettle⟩
  have hask : (restoreHeld m).run.Within A (Action.Bounded B) (Blames C) := by
    refine Within.lift (ask_within (j := .restore m) hasks ⟨hasks, hm⟩) ?_
    rintro (_ | ⟨m'⟩ | _) _
    · exact alone_within hlost hparked
    · exact alone_within hlost hparked
    · exact Within.lift settleTone_within fun _ _ => blames_ok _
  refine ⟨trivial, ?_⟩
  rintro (_ | _ | _) hmode
  · exact hask
  · exact blames_error (hbusy hmode)
  · exact hask

theorem orSystemError_within {p : Procedure (Except SystemError α)} {P : Except SystemError α → Prop}
    (h : p.Within A (Action.Bounded B) P) :
    (orSystemError p).run.Within A (Action.Bounded B)
      (fun
        | .ok x => P (.ok x)
        | .error e => ∃ e', P (.error e') ∧ e = .system e') := by
  refine Within.lift h ?_
  rintro (e | x) hx
  · exact ⟨e, hx, rfl⟩
  · exact hx

theorem single_within {a : Action} (ha : a.Bounded B) : (single a).Within A (Action.Bounded B) (A a) :=
  ⟨ha, fun _ hx => hx⟩

theorem writeDown_within (m : Machine) (hwrites : B.writes)
    (hwrite : ∀ e, (A .createFile (.error e) ∨ ∃ bytes, A (.appendFile bytes) (.error e)) → C (.system e)) :
    (writeDown m).run.Within A (Action.Bounded B) (Blames C) := by
  refine Within.andThen (orSystemError_within (single_within hwrites)) ?_ ?_
  · intro _ _
    refine Within.andThen (orSystemError_within (single_within hwrites)) ?_ ?_
    · intro _ _
      exact ⟨trivial, fun _ _ => ⟨trivial, fun _ _ => blames_ok ()⟩⟩
    · rintro _ ⟨e, happend, rfl⟩
      exact blames_error (hwrite e (.inr ⟨_, happend⟩))
  · rintro _ ⟨e, hcreate, rfl⟩
    exact blames_error (hwrite e (.inl hcreate))

theorem save_within (hasks : B.asks) (hwrites : B.writes) (hlost : A .joinRunner false → C .disconnected)
    (hwrite : ∀ e, (A .createFile (.error e) ∨ ∃ bytes, A (.appendFile bytes) (.error e)) → C (.system e)) :
    save.run.Within A (Action.Bounded B) (Blames C) := by
  refine Within.andThen (capture_within hasks hlost) ?_ fun _ he => he.elsewhere
  intro m _
  exact writeDown_within m hwrites hwrite

/-- What a load does with the bytes of the state file. -/
def unpack (bytes : List UInt8) : Op Unit :=
  match Image.decode bytes with
  | .error d => throw (.invalidImage d)
  | .ok m => do
    restore m
    single (.note (.loadedFrom (← single .statePath)))

theorem unpack_within {bytes : List UInt8} (hasks : B.asks) (hm : ∀ m, m.WellFormed → B.machines m)
    (hbusy : A .readMode .running → C .busy) (hlost : A .joinRunner false → C .disconnected)
    (hundecoded : ∀ d, Image.decode bytes = .error d → C (.invalidImage d)) :
    (unpack bytes).run.Within A (Action.Bounded B) (Blames C) := by
  unfold unpack
  cases hdecode : Image.decode bytes with
  | error d => exact blames_error (hundecoded d hdecode)
  | ok m =>
    have hwell : m.WellFormed := Image.wellFormed_of_decode hdecode
    refine Within.andThen (restore_within hasks (hm m hwell) hbusy hlost) (fun _ _ => ?_) fun _ he => he
    exact ⟨trivial, fun _ _ => ⟨trivial, fun _ _ => blames_ok ()⟩⟩

theorem load_within (hasks : B.asks) (hreads : B.reads) (hm : ∀ m, m.WellFormed → B.machines m)
    (hbusy : A .readMode .running → C .busy) (hlost : A .joinRunner false → C .disconnected)
    (hunread : ∀ e, A .readFile (.error e) → C (.system e))
    (hundecoded : ∀ bytes d, A .readFile (.ok bytes) → Image.decode bytes = .error d → C (.invalidImage d)) :
    load.run.Within A (Action.Bounded B) (Blames C) := by
  have hread : (do
      let bytes ← orSystemError (single .readFile)
      unpack bytes : Op Unit).run.Within A (Action.Bounded B) (Blames C) := by
    refine Within.andThen (orSystemError_within (single_within hreads)) ?_ ?_
    · intro bytes hbytes
      exact unpack_within hasks hm hbusy hlost fun d hdecode => hundecoded bytes d hbytes hdecode
    · rintro _ ⟨e, hread, rfl⟩
      exact blames_error (hunread e hread)
  refine ⟨trivial, ?_⟩
  rintro (_ | _ | _) hmode
  · exact hread
  · exact blames_error (hbusy hmode)
  · exact hread

theorem setRate_within (hz : UInt32) : (setRate hz).Within A (Action.Bounded B) fun _ => True :=
  ⟨trivial, fun _ _ => ⟨trivial, fun _ _ => ⟨trivial, fun _ _ => trivial⟩⟩⟩

theorem none_within {o : Op Unit} (h : o.run.Within A (Action.Bounded B) (Blames C)) :
    (do o; return none : Op (Option Machine)).run.Within A (Action.Bounded B) (Blames C) :=
  Within.andThen h (fun _ _ => blames_ok none) fun _ he => he.elsewhere

theorem none_within_lift {p : Procedure Unit} (h : p.Within A (Action.Bounded B) fun _ => True) :
    (do p; return none : Op (Option Machine)).run.Within A (Action.Bounded B) (Blames C) :=
  Within.lift h fun _ _ => blames_ok none

theorem load_blames (A : (a : Action) → a.Answer → Prop) :
    load.run.Within A (Action.Bounded Request.load.bounds) (Blames (Request.Fails A .load)) := by
  have hm (m : Machine) (hwell : m.WellFormed) : Request.load.bounds.machines m := .inr ⟨rfl, hwell⟩
  have hasks : Request.load.bounds.asks := .inr ⟨.powerOn, .inr rfl⟩
  exact load_within hasks rfl hm (.busy (m := .powerOn) (.inr rfl)) .lost (fun _ => .unread) fun _ _ => .undecoded

/-- **Every error has its cause**, and every request keeps to its bounds. -/
theorem request_within (A : (a : Action) → a.Answer → Prop) (q : Request) :
    q.order.run.Within A (Action.Bounded q.bounds) (Blames (Request.Fails A q)) := by
  cases q with
  | reset program =>
    have hpark (p : Processor) (hp : Processor.withProgram? program = some p) :
        (Request.reset program).bounds.processors p := ⟨program, rfl, hp⟩
    exact none_within (reset_within rfl (.inr ⟨program, rfl⟩) hpark .lost .tooLarge (.refused (.inr ⟨program, rfl⟩)))
  | start => exact none_within (start_within rfl (.inl rfl) .lost (.refused (.inl rfl)))
  | stop => exact none_within (stop_within .lost fun _ => .told)
  | pause => exact none_within_lift (pause_within rfl)
  | resume => exact none_within_lift (resume_within rfl)
  | capture =>
    have hasks : Request.capture.bounds.asks := .inl (.inl rfl)
    apply Within.andThen (capture_within (C := Request.Fails A .capture) hasks .lost)
    · intro m _
      exact blames_ok (some m)
    · intro e he
      exact he.elsewhere
  | restore m => exact none_within (restore_within (.inr ⟨m, .inl rfl⟩) (.inl rfl) (.busy (.inl rfl)) .lost)
  | save => exact none_within (save_within (.inl (.inr rfl)) rfl .lost fun _ => .unwritten)
  | load => exact none_within (load_blames A)
  | setRate hz => exact none_within_lift (setRate_within hz)

end Order

/-! ### What the clocks and the actions keep -/

namespace Console

variable {sc : Scenario} {c c' : Console} {es : List Event}

/-- Of the clocks, only the runner sets the run state, to `stopped`. -/
theorem Moves.mode_eq_or (h : c.Moves sc c' es) (hsc : sc.Only Happening.KeepsMode) :
    c'.board.mode = c.board.mode ∨ c'.board.mode = .stopped := by
  cases h with
  | step hlive hstage stage mode rate journal hmode | die hlive hstage mode rate journal hmode => exact .inl (hmode hsc)
  | fail => exact .inr rfl
  | _ => exact .inl rfl

end Console

/-- Since `s`, one of the events `X` has happened. -/
def Scene.EventSince (X : Event → Prop) (s s' : Scene) : Prop := ∃ es, s'.past = s.past ++ es ∧ ∃ e ∈ es, X e

/-- `J` is kept by the clocks, unless one of the events `X` happens, and by actions among `F`, and these give answers
among `A`. -/
structure Scene.Grants (sc : Scenario) (A : (a : Action) → a.Answer → Prop) (F : Action → Prop) (X : Event → Prop)
    (J : Scene → Prop) : Prop where
  moves : ∀ {s c es}, J s → s.console.Moves sc c es → (∃ e ∈ es, X e) ∨ J ⟨c, s.past ++ es⟩
  acts : ∀ {s a x c}, J s → F a → s.console.act a = some (x, c) → A a x ∧ J (s.did a x c)

/-- Whoever comes and whatever happens between two requests leaves `J` as it is. -/
structure Scene.Lasts (J : Scene → Prop) : Prop where
  called : ∀ {s q}, J s → J (s.add (.called q))
  answered : ∀ {s q answer}, J s → J (s.add (.answered q answer))
  refused : ∀ {s n}, J s → J ⟨{ s.console with refusal := n }, s.past⟩
  filed : ∀ {s f}, J s → J ⟨{ s.console with file := f }, s.past⟩

namespace Scene

variable {sc : Scenario} {A : (a : Action) → a.Answer → Prop} {F : Action → Prop} {X : Event → Prop}
  {J : Scene → Prop} {s s' s'' : Scene}

theorem EventSince.append (h : EventSince X s s') {es : List Event} (hpast : s''.past = s'.past ++ es) :
    EventSince X s s'' := by
  obtain ⟨es', hpast', e, he, hX⟩ := h
  refine ⟨es' ++ es, ?_, e, List.mem_append_left es he, hX⟩
  rw [hpast, hpast', List.append_assoc]

theorem EventSince.after (h : EventSince X s' s'') {es : List Event} (hpast : s'.past = s.past ++ es) :
    EventSince X s s'' := by
  obtain ⟨es', hpast', e, he, hX⟩ := h
  refine ⟨es ++ es', ?_, e, List.mem_append_right es he, hX⟩
  rw [hpast', hpast, List.append_assoc]

theorem not_eventSince : ¬ EventSince (fun _ => False) s s' := by
  rintro ⟨_, _, _, _, h⟩
  exact h

theorem Grants.drifts (h : Grants sc A F X J) (hs : J s) (hdrift : s.Drifts sc s') : EventSince X s s' ∨ J s' := by
  have hall : (∃ es, s'.past = s.past ++ es) ∧ (EventSince X s s' ∨ J s') := by
    refine hdrift.induct (P := fun s' => (∃ es, s'.past = s.past ++ es) ∧ (EventSince X s s' ∨ J s')) ?_
      ⟨⟨[], (List.append_nil _).symm⟩, .inr hs⟩
    rintro s₁ c es ⟨⟨es₁, hpast⟩, hs₁⟩ hmoves
    refine ⟨⟨es₁ ++ es, by rw [hpast, List.append_assoc]⟩, ?_⟩
    rcases hs₁ with hevent | hs₁
    · exact .inl (hevent.append rfl)
    · exact (h.moves hs₁ hmoves).imp (fun hX => EventSince.after ⟨es, rfl, hX⟩ hpast) id
  exact hall.2

/-- Only the desk can set the run state to `running`. -/
theorem grants_held (hsc : sc.Only Happening.KeepsMode) {B : Action.Bounds} (hB : ¬ B.modes .running) :
    Grants sc Action.Held (Action.Bounded B) (fun _ => False) fun s => s.console.board.mode ≠ .running where
  moves h hmoves := by
    refine .inr ?_
    rcases hmoves.mode_eq_or hsc with hsame | hstopped
    · dsimp only
      rwa [hsame]
    · dsimp only
      rw [hstopped]
      nofun
  acts {s a x c} h ha hact := by
    constructor
    · cases a with
      | readMode =>
        cases hact
        exact h
      | _ => trivial
    · show c.board.mode ≠ .running
      rcases (Console.footprint_of_act hact).mode with hsame | rfl
      · rwa [hsame]
      · rcases ha with hstopped | hset
        · rw [hstopped]
          nofun
        · intro hrunning
          exact hB (hrunning ▸ hset)

end Scene

/-! ### Turns -/

def Turn.isClock : Turn → Bool
  | .runner _ | .metronome .. => true
  | _ => false

namespace Office

/-- Nobody looks at the past in a turn. -/
theorem advance_past (sc : Scenario) (o : Office) (t : Turn) :
    ∃ es, ∀ past, ({ o with past } : Office).advance sc t = { o.advance sc t with past := past ++ es } := by
  have hstays {o' : List Event → Office} (h : ∀ past, o' past = { o' o.past with past }) :
      ∃ es : List Event, ∀ past, o' past = { o' o.past with past := past ++ es } :=
    ⟨[], fun past => by rw [List.append_nil]; exact h past⟩
  obtain ⟨⟨c, past⟩, task⟩ := o
  cases t with
  | runner due =>
    simp only [advance]
    cases c.runner with
    | live r => exact ⟨_, fun past => rfl⟩
    | none | ended | died => exact hstays fun past => rfl
  | metronome due fatal =>
    simp only [advance]
    cases c.metronome with
    | live m => exact ⟨_, fun past => rfl⟩
    | none | ended | died => exact hstays fun past => rfl
  | desk =>
    simp only [advance, work]
    rcases task with _ | ⟨q, _ | ⟨a, next⟩⟩
    · exact hstays fun past => rfl
    · exact ⟨_, fun past => rfl⟩
    · dsimp only
      cases c.act a with
      | none => exact hstays fun past => rfl
      | some done => exact ⟨_, fun past => rfl⟩
  | call q =>
    cases task with
    | none => exact ⟨_, fun past => rfl⟩
    | some task => exact hstays fun past => rfl
  | refuse n | file f =>
    cases task with
    | none | some task => exact hstays fun past => rfl

theorem run_cons (sc : Scenario) (o : Office) (t : Turn) (turns : List Turn) :
    o.run sc (t :: turns) = (o.advance sc t).run sc turns := rfl

/-- **Nobody looks at the past**, and it only grows. -/
theorem run_past (sc : Scenario) (o : Office) (turns : List Turn) :
    ∃ es, ∀ past, ({ o with past } : Office).run sc turns = { o.run sc turns with past := past ++ es } := by
  induction turns generalizing o with
  | nil => exact ⟨[], fun past => by rw [List.append_nil]; rfl⟩
  | cons t turns ih =>
    obtain ⟨es, hes⟩ := advance_past sc o t
    obtain ⟨es', hes'⟩ := ih (o.advance sc t)
    refine ⟨es ++ es', ?_⟩
    intro past
    have hnext := hes' (past ++ es)
    rw [← hes, List.append_assoc] at hnext
    exact hnext

theorem past_run (sc : Scenario) (o : Office) (turns : List Turn) : ∃ es, (o.run sc turns).past = o.past ++ es := by
  obtain ⟨es, hes⟩ := run_past sc o turns
  exact ⟨es, congrArg (fun o : Office => o.past) (hes o.past)⟩

theorem advance_clock (sc : Scenario) {t : Turn} (ht : t.isClock = true) (s : Scene) :
    ({ toScene := s } : Office).advance sc t = { toScene := s.clocked sc t } := by
  cases t with
  | runner due =>
    simp only [advance, Scene.clocked]
    cases s.console.runner <;> rfl
  | metronome due fatal =>
    simp only [advance, Scene.clocked]
    cases s.console.metronome <;> rfl
  | desk | call | refuse | file => cases ht

/-- Somebody has come to `o` with the request, and after these turns the desk is about to give the answer. -/
def Answers (sc : Scenario) (o : Office) (q : Request) (turns : List Turn) (answer : Request.Answer) : Prop :=
  ∃ s, (o.advance sc (.call q)).run sc turns = busy s q (.done answer) ∧ q.Asks o.past s.past

theorem asks_of_append {q : Request} {before es es' : List Event}
    (h : q.Asks before (before ++ .called q :: es ++ es')) : q.Asks before (before ++ .called q :: es) := by
  obtain ⟨during, hpast, hinner⟩ := h
  have hduring : es ++ es' = during := by
    simpa only [List.append_assoc, List.cons_append, List.append_cancel_left_eq, List.cons.injEq, true_and] using hpast
  refine ⟨es, rfl, ?_⟩
  intro e he
  exact hinner e (hduring ▸ List.mem_append_left es' he)

theorem not_asks_of_answered {q : Request} {answer : Request.Answer} {before past es es' : List Event}
    (h : q.Asks before past) : ¬ q.Asks before (past ++ es ++ .answered q answer :: es') := by
  obtain ⟨during, rfl, -⟩ := h
  rintro ⟨during', hpast, hinner⟩
  have hduring : during ++ es ++ .answered q answer :: es' = during' := by
    simpa only [List.append_assoc, List.cons_append, List.append_cancel_left_eq, List.cons.injEq, true_and] using hpast
  exact hinner (.answered q answer) (hduring ▸ List.mem_append_right _ List.mem_cons_self)

section

variable {sc : Scenario} {q : Request} {s s' : Scene} {p : Procedure Request.Answer} {before : List Event}
  {turns : List Turn} {answer : Request.Answer}

/-- One turn of an office at a request: a clock moves, the desk waits or does its next action, or it answers. -/
theorem advance_busy (q : Request) {P : Scene → Procedure Request.Answer → Prop} {t : Turn}
    (hclock : P (s.clocked sc t) p)
    (hact : ∀ a next x c, p = .act a next → t = .desk → s.console.act a = some (x, c) → P (s.did a x c) (next x)) :
    (∃ s' p', (busy s q p).advance sc t = busy s' q p' ∧ P s' p') ∨
      ∃ answer, p = .done answer ∧ (busy s q p).advance sc t = { toScene := s.add (.answered q answer) } := by
  by_cases ht : t = .desk
  · subst ht
    cases p with
    | done answer => exact .inr ⟨answer, rfl, rfl⟩
    | act a next =>
      cases hdone : s.console.act a with
      | none =>
        refine .inl ⟨s, .act a next, ?_, hclock⟩
        simp only [advance, work, busy, hdone]
      | some done =>
        obtain ⟨x, c⟩ := done
        exact .inl ⟨_, _, advance_act sc hdone q next, hact a next x c rfl rfl hdone⟩
  · exact .inl ⟨_, _, advance_of_ne_desk sc s q p ht, hclock⟩

/-- **What every turn keeps** is there when the request is answered.  It may depend on the turns so far. -/
theorem kept_of_asks {I : List Turn → Scene → Procedure Request.Answer → Prop}
    (hclock : ∀ {turns s p} t, I turns s p → I (turns ++ [t]) (s.clocked sc t) p)
    (hact : ∀ {turns s a next x c}, I turns s (.act a next) → s.console.act a = some (x, c) →
      I (turns ++ [.desk]) (s.did a x c) (next x))
    (h : I [] s p) (hasks : q.Asks before s.past) (hrun : (busy s q p).run sc turns = busy s' q (.done answer))
    (hasks' : q.Asks before s'.past) : I turns s' (.done answer) := by
  have hall (later : List Turn) : ∀ {turns s₁ p₁}, I turns s₁ p₁ → (∃ es, s₁.past = s.past ++ es) →
      (busy s₁ q p₁).run sc later = busy s' q (.done answer) → I (turns ++ later) s' (.done answer) := by
    induction later with
    | nil =>
      intro turns s₁ p₁ hI _ hrun
      cases hrun
      rwa [List.append_nil]
    | cons t later ih =>
      rintro turns s₁ p₁ hI ⟨es, hpast⟩ hrun
      obtain ⟨es', hes'⟩ := past_run sc (busy s₁ q p₁) [t]
      rw [run_cons] at hrun hes'
      rcases advance_busy q (P := I (turns ++ [t])) (hclock t hI)
          (by rintro a next x c rfl rfl hdone; exact hact hI hdone) with ⟨s₂, p₂, hadvance, hI₂⟩ | ⟨answer₁, rfl, hadvance⟩
      · rw [hadvance] at hrun hes'
        have hpast₂ : s₂.past = s.past ++ (es ++ es') := by
          rw [← List.append_assoc, ← hpast]
          exact hes'
        have hend := ih hI₂ ⟨_, hpast₂⟩ hrun
        rwa [List.append_assoc, List.singleton_append] at hend
      -- the answer was given, and nobody waits for it any more
      · obtain ⟨es'', hes''⟩ := past_run sc ({ toScene := s₁.add (.answered q answer₁) } : Office) later
        rw [hadvance] at hrun
        rw [hrun] at hes''
        have hpast' : s'.past = s.past ++ es ++ .answered q answer₁ :: es'' := by
          rw [← hpast, ← List.singleton_append, ← List.append_assoc]
          exact hes''
        rw [hpast'] at hasks'
        exact absurd hasks' (not_asks_of_answered hasks)
  exact hall turns h ⟨[], (List.append_nil _).symm⟩ hrun

/-- What the procedure secures is there when it is answered, but for moves of the clocks. -/
theorem secures_of_asks (hsc : sc.Only Happening.Apart) {D : Scene → Action → Prop} {Q : Request.Answer → Scene → Prop}
    (h : p.Secures sc D Q s) (hasks : q.Asks before s.past) (hrun : (busy s q p).run sc turns = busy s' q (.done answer))
    (hasks' : q.Asks before s'.past) : ∃ s₁, Q answer s₁ ∧ s₁.Drifts sc s' := by
  have hkept := kept_of_asks (I := fun _ s' p => ∃ s₁, p.Secures sc D Q s₁ ∧ s₁.Drifts sc s')
    (fun t ⟨s₁, hsecures, hdrift⟩ => ⟨s₁, hsecures, hdrift.clocked hsc t⟩) ?_ ⟨s, h, .refl s⟩ hasks hrun hasks'
  · obtain ⟨s₁, hend, hdrift⟩ := hkept
    cases hend with
    | here hend =>
      obtain ⟨_, ⟨⟩, hQ⟩ := hend
      exact ⟨s₁, hQ, hdrift⟩
  · rintro turns s' a next x c ⟨s₁, hsecures, hdrift⟩ hdone
    cases hsecures with
    | here hend =>
      obtain ⟨_, ⟨⟩, -⟩ := hend
    | act hfits hnext => exact ⟨_, hnext s' hdrift x c hdone, .refl _⟩

variable {A : (a : Action) → a.Answer → Prop} {F : Action → Prop} {X : Event → Prop} {Q : Request.Answer → Prop}
  {J : Scene → Prop}

/-- What the procedure allows is answered, as long as the answers of its actions are as it relies on. -/
theorem within_of_asks (hsc : sc.Only Happening.Apart) (hJ : Scene.Grants sc A F X J) (h : p.Within A F Q) (hs : J s)
    (hasks : q.Asks before s.past) (hrun : (busy s q p).run sc turns = busy s' q (.done answer))
    (hasks' : q.Asks before s'.past) : Scene.EventSince X s s' ∨ Q answer ∧ J s' := by
  have hkept := kept_of_asks
    (I := fun _ s' p => Extends s s' ∧ (Scene.EventSince X s s' ∨ p.Within A F Q ∧ J s')) ?_ ?_ ⟨.refl s, .inr ⟨h, hs⟩⟩
    hasks hrun hasks'
  · exact hkept.2
  · rintro turns s₁ p₁ t ⟨hext, hs₁⟩
    have hdrift : s₁.Drifts sc (s₁.clocked sc t) := (Scene.Drifts.refl s₁).clocked hsc t
    obtain ⟨es, hes, -⟩ := Extends.of_drifts hdrift
    obtain ⟨es₁, hes₁, -⟩ := id hext
    refine ⟨hext.trans (.of_drifts hdrift), ?_⟩
    rcases hs₁ with hevent | ⟨hp, hs₁⟩
    · exact .inl (hevent.append hes)
    · exact (hJ.drifts hs₁ hdrift).imp (fun hevent => hevent.after hes₁) fun hs₂ => ⟨hp, hs₂⟩
  · rintro turns s₁ a next x c ⟨hext, hs₁⟩ hdone
    refine ⟨hext.did, ?_⟩
    rcases hs₁ with hevent | ⟨hp, hs₁⟩
    · exact .inl (hevent.append rfl)
    · obtain ⟨hx, hs₂⟩ := hJ.acts hs₁ hp.1 hdone
      exact .inr ⟨hp.2 x hx, hs₂⟩

/-- `J` holds, and the desk is at nothing that would break it. -/
structure Kept (A : (a : Action) → a.Answer → Prop) (F : Action → Prop) (J : Scene → Prop) (o : Office) : Prop where
  scene : J o.toScene
  task : ∀ q p, o.task = some (q, p) → p.Within A F fun _ => True

/-- **One turn** of any office, if whoever comes asks for nothing that would break it. -/
theorem Kept.advance {o : Office} (hsc : sc.Only Happening.Apart) (hJ : Scene.Grants sc A F (fun _ => False) J)
    (hlasts : Scene.Lasts J) (h : o.Kept A F J) {t : Turn}
    (hcall : ∀ q, t = .call q → o.task = none → q.order.run.Within A F fun _ => True) :
    (o.advance sc t).Kept A F J := by
  obtain ⟨s, task⟩ := o
  have hclocked : J (s.clocked sc t) := by
    have hdrift : s.Drifts sc (s.clocked sc t) := (Scene.Drifts.refl s).clocked hsc t
    exact (hJ.drifts h.scene hdrift).resolve_left Scene.not_eventSince
  rcases task with _ | ⟨q, p⟩
  · have hclock (ht : t.isClock = true) : (({ toScene := s } : Office).advance sc t).Kept A F J := by
      rw [advance_clock sc ht]
      exact ⟨hclocked, nofun⟩
    cases t with
    | runner due => exact hclock rfl
    | metronome due fatal => exact hclock rfl
    | desk => exact ⟨h.scene, nofun⟩
    | call q =>
      refine ⟨hlasts.called h.scene, ?_⟩
      rintro _ _ ⟨⟩
      exact hcall q rfl rfl
    | refuse n => exact ⟨hlasts.refused h.scene, nofun⟩
    | file f => exact ⟨hlasts.filed h.scene, nofun⟩
  · have hp : p.Within A F fun _ => True := h.task q p rfl
    show ((busy s q p).advance sc t).Kept A F J
    have hact (a : Action) (next : a.Answer → Procedure Request.Answer) (x : a.Answer) (c : Console)
        (hstep : p = .act a next) (_ : t = .desk) (hdone : s.console.act a = some (x, c)) :
        J (s.did a x c) ∧ (next x).Within A F fun _ => True := by
      subst hstep
      obtain ⟨hx, hs'⟩ := hJ.acts h.scene hp.1 hdone
      exact ⟨hs', hp.2 x hx⟩
    rcases advance_busy q (P := fun s' p' => J s' ∧ p'.Within A F fun _ => True) ⟨hclocked, hp⟩ hact with
      ⟨s', p', hadvance, hs', hp'⟩ | ⟨answer, -, hadvance⟩
    · rw [hadvance]
      refine ⟨hs', ?_⟩
      rintro _ _ ⟨⟩
      exact hp'
    · rw [hadvance]
      exact ⟨hlasts.answered h.scene, nofun⟩

end

/-! ### Reading an answer off an office -/

def answer? (o : Office) : Option (Request × Request.Answer) :=
  match o.task with
  | some (q, .done answer) => some (q, answer)
  | _ => none

/-- Unless somebody comes, a desk that is at no request stays so. -/
theorem run_idle (sc : Scenario) {o : Office} (hidle : o.task = none) {turns : List Turn}
    (hturns : ∀ q, .call q ∉ turns) : (o.run sc turns).task = none := by
  induction turns generalizing o with
  | nil => exact hidle
  | cons t turns ih =>
    have htail : ∀ q, .call q ∉ turns := fun q hmem => hturns q (List.mem_cons_of_mem _ hmem)
    refine ih ?_ htail
    obtain ⟨s, task⟩ := o
    cases hidle
    cases t with
    | call q => exact absurd List.mem_cons_self (hturns q)
    | runner due => rw [advance_clock sc rfl]
    | metronome due fatal => rw [advance_clock sc rfl]
    | desk | refuse | file => rfl

/-- Unless somebody comes, the desk is on its way, or it is at no request. -/
theorem busy_or_idle {sc : Scenario} (hsc : sc.Only Happening.Apart) (s : Scene) (q : Request)
    (p : Procedure Request.Answer) {turns : List Turn} (hturns : ∀ q, .call q ∉ turns) :
    (∃ s' p', (busy s q p).run sc turns = busy s' q p' ∧ Extends s s') ∨ ((busy s q p).run sc turns).task = none := by
  induction turns generalizing s p with
  | nil => exact .inl ⟨s, p, rfl, .refl s⟩
  | cons t turns ih =>
    have htail : ∀ q, .call q ∉ turns := fun q hmem => hturns q (List.mem_cons_of_mem _ hmem)
    have hgoes {s₁ : Scene} {p₁ : Procedure Request.Answer} (hadvance : (busy s q p).advance sc t = busy s₁ q p₁)
        (hext : Extends s s₁) : (∃ s' p', (busy s q p).run sc (t :: turns) = busy s' q p' ∧ Extends s s') ∨
          ((busy s q p).run sc (t :: turns)).task = none := by
      rw [run_cons, hadvance]
      rcases ih s₁ p₁ htail with ⟨s', p', hrun, hext'⟩ | hnone
      · exact .inl ⟨s', p', hrun, hext.trans hext'⟩
      · exact .inr hnone
    by_cases ht : t = .desk
    · subst ht
      cases p with
      | done answer =>
        have hnone : ((busy s q (.done answer)).advance sc .desk).task = none := rfl
        exact .inr (run_idle sc hnone htail)
      | act a next =>
        cases hact : s.console.act a with
        | none =>
          have hstays : (busy s q (.act a next)).advance sc .desk = busy s q (.act a next) := by
            simp only [advance, work, busy, hact]
          exact hgoes hstays (.refl s)
        | some done => exact hgoes (advance_act sc hact q next) (Extends.refl s).did
    · exact hgoes (advance_of_ne_desk sc s q p ht) (.of_drifts ((Scene.Drifts.refl s).clocked hsc t))

/-- An answer that can be read off an office answers whoever came last. -/
theorem answers_of_answer? {sc : Scenario} (hsc : sc.Only Happening.Apart) {o : Office} (hidle : o.task = none)
    {q q' : Request} {answer : Request.Answer} {turns : List Turn} (hturns : ∀ q, .call q ∉ turns)
    (h : ((o.advance sc (.call q)).run sc turns).answer? = some (q', answer)) : o.Answers sc q turns answer := by
  unfold Answers
  rw [advance_call sc hidle] at h ⊢
  rcases busy_or_idle hsc (o.add (.called q)) q q.order.run hturns with ⟨s, p, hrun, hext⟩ | hnone
  · rw [hrun] at h
    cases p with
    | act a next => cases h
    | done answer' =>
      cases h
      exact ⟨s, hrun, hext.asks⟩
  · simp only [answer?, hnone] at h
    cases h

end Office

end ChipEight
