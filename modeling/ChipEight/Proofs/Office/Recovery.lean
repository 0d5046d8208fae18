import ChipEight.Proofs.Office.Erasure
import ChipEight.Proofs.Office.Refusals
import ChipEight.Proofs.Office.Saved
import ChipEight.Proofs.Office.Stopped

/-!
# A saved machine is loaded

`load_state` after `save_state`, by the same machine or another.

* `Office.mode_of_load` : a load leaves the run state alone.
* `Scene.Traced` : a copy is of what the events have made of the machine.
* `Office.Brings` : a load has brought a machine.
* `Office.recovers` : what one machine saves every machine can load, unless somebody has restored an ill-formed one.
* `Office.lost_image` : an ill-formed machine can be restored and saved, and its image cannot be loaded.
-/

namespace ChipEight

open Procedure (single Within)

/-! ### The run state -/

/-- Where the run state is not `stopped`, a runner is at work. -/
def Console.WorksUnlessStopped (c : Console) : Prop :=
  c.board.mode ≠ .stopped → ∃ r, c.runner = .live r ∧ r.stage ≠ .leaving

/-- A runner at work waits for jobs, and nobody has asked it for a copy. -/
structure Scene.Serves (s : Scene) : Prop where
  mode : s.console.board.mode = .paused
  attached : s.console.desk.attached = true
  runner : ∃ r, s.console.runner = .live r ∧ r.stage ≠ .leaving
  jobs : ∀ job ∈ s.console.mail.jobs, ∃ m, job.2 = .restore m
  replies : ∀ reply ∈ s.console.mail.replies, reply.2 = .restored

def Action.Served : (a : Action) → a.Answer → Prop
  | .isAttached, attached => attached = true
  | .post _, ticket => ticket ≠ none
  | .collect _, reply => reply = some .restored
  | _, _ => True

def Action.Light : Action → Prop
  | .readMode | .readFile | .isAttached | .post (.restore _) | .collect _ => True
  | .readSound | .startTone | .stopTone | .statePath | .note _ => True
  | _ => False

namespace Order

theorem settleTone_light : settleTone.Within Action.Served Action.Light fun _ => True := by
  refine ⟨trivial, ?_⟩
  rintro _ rfl
  refine ⟨trivial, ?_⟩
  intro sound _
  change Within Action.Served Action.Light _ (if 0 < sound then single .startTone else single .stopTone)
  split <;> exact ⟨trivial, fun _ _ => trivial⟩

theorem ask_light (m : Machine) : (ask (.restore m)).Within Action.Served Action.Light (· = some .restored) := by
  refine ⟨trivial, ?_⟩
  rintro _ rfl
  refine ⟨trivial, ?_⟩
  rintro (_ | ticket) hticket
  · exact absurd rfl hticket
  · exact ⟨trivial, fun _ hreply => hreply⟩

theorem restore_light (m : Machine) : (restore m).run.Within Action.Served Action.Light fun _ => True := by
  have hask : (restoreHeld m).run.Within Action.Served Action.Light fun _ => True := by
    refine Within.lift (ask_light m) ?_
    rintro _ rfl
    exact Within.lift settleTone_light fun _ _ => trivial
  refine ⟨trivial, ?_⟩
  rintro (_ | _ | _) _
  · exact hask
  · trivial
  · exact hask

/-- **A load that a runner serves** sets no run state. -/
theorem load_light : load.run.Within Action.Served Action.Light fun _ => True := by
  have hunpack (bytes : List UInt8) : (unpack bytes).run.Within Action.Served Action.Light fun _ => True := by
    unfold unpack
    cases Image.decode bytes with
    | error d => trivial
    | ok m =>
      refine Within.andThen (restore_light m) (fun _ _ => ?_) fun _ _ => trivial
      exact ⟨trivial, fun _ _ => ⟨trivial, fun _ _ => trivial⟩⟩
  have hread : (do
      let bytes ← orSystemError (single .readFile)
      unpack bytes : Op Unit).run.Within Action.Served Action.Light fun _ => True := by
    refine ⟨trivial, ?_⟩
    rintro (e | bytes) _
    · trivial
    · exact hunpack bytes
  refine ⟨trivial, ?_⟩
  rintro (_ | _ | _) _
  · exact hread
  · trivial
  · exact hread

theorem request_load_light : Request.load.order.run.Within Action.Served Action.Light fun _ => True :=
  Within.andThen load_light (fun _ _ => trivial) fun _ _ => trivial

end Order

/-- The end of a run: its runner has died or recorded a fault. -/
def Event.EndsRun (e : Event) : Prop := e = .died ∨ ∃ f, e = .faulted f

def Event.endsRun : Event → Bool
  | .died | .faulted _ => true
  | _ => false

theorem Event.endsRun_iff {e : Event} : e.endsRun = true ↔ e.EndsRun := by
  cases e <;> simp [endsRun, EndsRun]

instance : DecidablePred Event.EndsRun := fun _ => decidable_of_iff _ Event.endsRun_iff

namespace Scene

variable {sc : Scenario} {s : Scene}

/-- Between two requests nobody has asked the runner for anything. -/
theorem serves_of_rests {ds : List Event} (h : s.Rests ds) (hmode : s.console.board.mode = .paused)
    (hrunner : ∃ r, s.console.runner = .live r ∧ r.stage ≠ .leaving) : s.Serves := by
  obtain ⟨a, hstands⟩ := h
  have hhere : a = true := by
    obtain ⟨r, hlive, -⟩ := hrunner
    rw [← hstands.runner, hlive]
    rfl
  refine ⟨hmode, hstands.attached.trans hhere, hrunner, ?_, ?_⟩
  · intro job hjob
    rw [hstands.jobs] at hjob
    cases hjob
  · intro reply hreply
    rw [hstands.replies] at hreply
    cases hreply

theorem Serves.moves {c : Console} {es : List Event} (hkeeps : sc.Only Happening.KeepsMode) (h : s.Serves)
    (hmoves : s.console.Moves sc c es) : (∃ e ∈ es, e.EndsRun) ∨ Serves ⟨c, s.past ++ es⟩ := by
  obtain ⟨hmode, hattached, ⟨r, hlive, hstage⟩, hjobs, hreplies⟩ := h
  have hsame {r' : Runner} (hlive' : s.console.runner = .live r') : r' = r := by
    rw [hlive] at hlive'
    cases hlive'
    rfl
  cases hmoves with
  | @pass r' hlive' hstage' stage journal hstops =>
    refine .inr ⟨hmode, hattached, ⟨_, rfl, ?_⟩, hjobs, hreplies⟩
    rintro rfl
    rw [hstops rfl] at hmode
    cases hmode
  | copy hlive' hstage' hhead =>
    obtain ⟨m, hm⟩ := hjobs (_, .capture) (hhead ▸ List.mem_cons_self)
    cases hm
  | install hlive' hstage' hhead =>
    refine .inr ⟨hmode, hattached, ⟨_, rfl, hstage'⟩, fun job hjob => hjobs job ?_, fun reply hreply => ?_⟩
    · rw [hhead]
      exact List.mem_cons_of_mem _ hjob
    · rcases List.mem_append.mp hreply with hold | hnew
      · exact hreplies reply hold
      · cases List.mem_singleton.mp hnew
        rfl
  | step hlive' hstage' stage mode rate journal hmode' hstays =>
    exact .inr ⟨(hmode' hkeeps).trans hmode, hattached, ⟨_, rfl, hstays⟩, hjobs, hreplies⟩
  | die => exact .inl ⟨.died, by simp, .inl rfl⟩
  | @fail r' f => exact .inl ⟨.faulted f, by simp, .inr ⟨f, rfl⟩⟩
  | leave hlive' hleaves =>
    obtain rfl := hsame hlive'
    exact absurd hleaves hstage
  | tick | hush => exact .inr ⟨hmode, hattached, ⟨r, hlive, hstage⟩, hjobs, hreplies⟩

theorem Serves.acts {a : Action} {x : a.Answer} {c : Console} (h : s.Serves) (ha : a.Light)
    (hact : s.console.act a = some (x, c)) : a.Served x ∧ (s.did a x c).Serves := by
  obtain ⟨hmode, hattached, ⟨r, hlive, hstage⟩, hjobs, hreplies⟩ := h
  cases a with
  | isAttached =>
    cases hact
    exact ⟨hattached, hmode, hattached, ⟨r, hlive, hstage⟩, hjobs, hreplies⟩
  | post j =>
    cases j with
    | capture => cases ha
    | restore m =>
      rcases Console.of_post hact with ⟨-, -, rfl, rfl⟩ | ⟨hgone, -, -⟩
      · refine ⟨by rintro ⟨⟩, hmode, hattached, ⟨r, hlive, hstage⟩, ?_, hreplies⟩
        intro job hjob
        rcases List.mem_append.mp hjob with hold | hnew
        · exact hjobs job hold
        · cases List.mem_singleton.mp hnew
          exact ⟨m, rfl⟩
      · exact absurd hlive (hgone r)
  | collect ticket =>
    rcases Console.of_collect hact with ⟨reply', hreplied, rfl, rfl⟩ | ⟨hgone, -, -⟩
    · obtain rfl : reply' = .restored := hreplies _ hreplied
      exact ⟨rfl, hmode, hattached, ⟨r, hlive, hstage⟩, hjobs, fun reply hreply =>
        hreplies reply (List.mem_of_mem_filter hreply)⟩
    · exact absurd hlive (hgone r)
  | readMode | readFile | readSound | startTone | stopTone | statePath | note =>
    cases hact
    exact ⟨trivial, hmode, hattached, ⟨r, hlive, hstage⟩, hjobs, hreplies⟩
  | _ => cases ha

/-- **A runner that is held serves the desk** until its run ends. -/
theorem grants_serves (hkeeps : sc.Only Happening.KeepsMode) :
    Grants sc Action.Served Action.Light Event.EndsRun Serves where
  moves h hmoves := h.moves hkeeps hmoves
  acts h ha hact := h.acts ha hact

end Scene

namespace Office

variable {sc : Scenario} {o : Office} {turns : List Turn} {answer : Request.Answer}

/-- **A load leaves the run state alone**, unless a run ends meanwhile that does not look stopped. -/
theorem mode_of_load (ho : o.Reachable) (hidle : o.task = none) (hapart : sc.Only Happening.Apart)
    (hkeeps : sc.Only Happening.KeepsMode) (hheld : o.console.board.mode ≠ .running)
    (hworking : o.console.WorksUnlessStopped) {during : List Event}
    (hpast : ((o.advance sc (.call .load)).run sc turns).past = o.past ++ .called .load :: during)
    (hanswers : o.Answers sc .load turns answer) (hends : ∀ e ∈ during, ¬ e.EndsRun) :
    ((o.advance sc (.call .load)).run sc turns).console.board.mode = o.console.board.mode := by
  cases hmode : o.console.board.mode with
  | running => exact absurd hmode hheld
  | stopped =>
    have hhalts : Request.load.order.run.Halts := (Order.tame_order fun _ => id).halts
    rcases hanswers.within hidle hapart (grants_stopped hkeeps) hhalts hmode hpast with ⟨_, _, h⟩ | ⟨-, hstopped⟩
    · exact h.elim
    · exact hstopped
  | paused =>
    obtain ⟨a, hrests⟩ := ho.rests hidle
    have hserves : (o.add (.called .load)).Serves :=
      Scene.serves_of_rests ⟨a, hrests.add (Event.plain_called .load)⟩ hmode (hworking (by rw [hmode]; nofun))
    rcases hanswers.within hidle hapart (Scene.grants_serves hkeeps) Order.request_load_light hserves hpast with
      ⟨e, he, hX⟩ | ⟨-, hserves⟩
    · exact absurd hX (hends e he)
    · exact hserves.mode

end Office

/-! ### Copies of what was loaded -/

/-- A copy is of the machine that the events before have left of the core `k`. -/
def Event.Copies (o : Surroundings) (k : Core) (before : List Event) : Event → Prop
  | .copied _ m => m = (replay o k before).machine
  | _ => True

def Event.Idle : Event → Prop
  | .stepped | .ticked | .died | .replaced .. | .seated _ | .cleared | .lost => False
  | _ => True

theorem replay_idle (o : Surroundings) (k : Core) {es : List Event} (h : ∀ e ∈ es, e.Idle) : replay o k es = k := by
  induction es with
  | nil => rfl
  | cons e es ih =>
    have he : e.befall o k = k := by
      have hidle := h e List.mem_cons_self
      cases e with
      | stepped | ticked | died | replaced | seated | cleared | lost => exact hidle.elim
      | _ => rfl
    show replay o (e.befall o k) es = k
    rw [he]
    exact ih fun e he => h e (List.mem_cons_of_mem _ he)

theorem replay_replaced (o : Surroundings) (k : Core) (earlier : List Event) (who : Voice) (m : Machine)
    {later : List Event} (h : ∀ e ∈ later, e.Idle) : (replay o k (earlier ++ .replaced who m :: later)).machine = m := by
  have hbefall (k : Core) : replay o k (.replaced who m :: later) = replay o ((Event.replaced who m).befall o k) later :=
    rfl
  rw [replay_append, hbefall, replay_idle o _ h]
  rfl

/-- Since `s₀` the machine is what the events have made of it, and every copy is of that. -/
def Scene.Traced (sc : Scenario) (s₀ s : Scene) : Prop :=
  ∃ es, s.past = s₀.past ++ es ∧ Tracks sc.toSurroundings (s₀.console.core s₀.console.processor) es s.console ∧
    Each (Event.Copies sc.toSurroundings (s₀.console.core s₀.console.processor)) es

namespace Scene.Traced

variable {sc : Scenario} {T : Turn → Prop} {s₀ s s' : Scene}

theorem refl (s : Scene) : s.Traced sc s := ⟨[], (List.append_nil _).symm, ⟨rfl, fun _ => rfl, fun _ => rfl⟩, .nil⟩

theorem moves {c : Console} {es : List Event} (h : s₀.Traced sc s) (hmoves : s.console.Moves sc c es) :
    s₀.Traced sc ⟨c, s.past ++ es⟩ := by
  obtain ⟨es₀, hpast, htracks, heach⟩ := h
  refine ⟨es₀ ++ es, by rw [hpast, List.append_assoc], htracks.moves hmoves, ?_⟩
  cases hmoves with
  | copy hlive =>
    refine heach.snoc ?_
    show _ = _
    rw [← htracks.machine_eq, Console.machine, Console.processor, hlive]
  | _ => exact heach.append_of_forall (by simp [Event.Copies])

theorem acts {role : Request} {a : Action} {x : a.Answer} {c : Console} (h : s₀.Traced sc s)
    (hfits : s.Fits sc role a) (hact : s.console.act a = some (x, c)) : s₀.Traced sc (s.did a x c) := by
  obtain ⟨es, hpast, htracks, heach⟩ := h
  refine ⟨es ++ a.events x, by rw [Scene.did, hpast, List.append_assoc], htracks.acts hfits hact, ?_⟩
  refine heach.append_of_length_le (a.length_events_le x) fun e he => ?_
  cases a with
  | captureParked =>
    cases List.mem_singleton.mp he
    cases hact
    exact (Console.machine_of_none hfits.2).symm.trans htracks.machine_eq
  | spawnRunner | spawnMetronome =>
    cases x <;> simp [Action.events] at he <;> subst he <;> trivial
  | note n =>
    cases n with
    | previousRunEnded f =>
      cases List.mem_singleton.mp he
      trivial
    | _ => cases he
  | park | resetBoard | replaceParked =>
    cases List.mem_singleton.mp he
    trivial
  | _ => cases he

theorem goes (h : s₀.Traced sc s) (hgoes : s.Goes sc T s') : s₀.Traced sc s' := by
  have hcalls (e : Event) (he : ∀ k : Core, replay sc.toSurroundings k [e] = k)
      (hcopies : ∀ k before, e.Copies sc.toSurroundings k before) : s₀.Traced sc (s.add e) := by
    obtain ⟨es, hpast, htracks, heach⟩ := h
    exact ⟨es ++ [e], by rw [Scene.add, hpast, List.append_assoc], htracks.same he rfl rfl rfl, heach.snoc (hcopies _ _)⟩
  cases hgoes with
  | stays | refused | filed => exact h
  | called => exact hcalls _ (fun _ => rfl) fun _ _ => trivial
  | answered => exact hcalls _ (fun _ => rfl) fun _ _ => trivial
  | moves hwhen hmoves => exact h.moves hmoves
  | acts hrole hasked hfits hact => exact h.acts hfits hact

/-- A copy of a machine that was replaced and left alone since is the same machine. -/
theorem eq_of_copied (h : s₀.Traced sc s) {earlier later : List Event} {who who' : Voice} {m m' : Machine}
    (hpast : s.past = s₀.past ++ earlier ++ .replaced who m :: later) (hcopied : .copied who' m' ∈ later)
    (hidle : ∀ e ∈ later, e.Idle) : m' = m := by
  obtain ⟨es, hes, -, heach⟩ := h
  rw [hes, List.append_assoc, List.append_cancel_left_eq] at hpast
  obtain ⟨before, after, rfl⟩ := List.append_of_mem hcopied
  have hcopies := heach (earlier ++ .replaced who m :: before) (.copied who' m') after (by rw [hpast]; simp)
  refine hcopies.trans (replay_replaced _ _ earlier who m ?_)
  exact fun e he => hidle e (List.mem_append_left _ he)

end Scene.Traced

/-! ### All together -/

namespace StateFile

variable {f : StateFile} {m m' : Machine} {bytes : List UInt8}

/-- What a file that has taken an image gives back, if it gives back a machine at all. -/
theorem Took.eq_of_decode (h : f.Took (Image.encode m)) (hread : f.read = .ok bytes)
    (hdecode : Image.decode bytes = .ok m') : m' = m ∧ m.WellFormed ∧ f ≠ .sink := by
  obtain ⟨hwell, rfl⟩ := Image.decode_eq_ok_iff.mp hdecode
  rcases h with rfl | rfl
  · obtain rfl := Image.encode_injective (Except.ok.inj hread)
    exact ⟨rfl, hwell, nofun⟩
  · have hlength := Image.length_of_decode hdecode
    rw [← Except.ok.inj hread] at hlength
    cases hlength

theorem Took.decodes_iff (h : f.Took (Image.encode m)) :
    (∃ bytes m', f.read = .ok bytes ∧ Image.decode bytes = .ok m') ↔ f ≠ .sink ∧ m.WellFormed := by
  constructor
  · rintro ⟨bytes, m', hread, hdecode⟩
    obtain ⟨-, hwell, hsink⟩ := h.eq_of_decode hread hdecode
    exact ⟨hsink, hwell⟩
  · rintro ⟨hsink, hwell⟩
    obtain rfl := h.resolve_right hsink
    exact ⟨Image.encode m, m, rfl, Image.decode_encode hwell⟩

end StateFile

namespace Office

variable {sc sc' : Scenario} {m : Machine} {o o' : Office} {turns : List Turn} {answer : Request.Answer}

/-- A copy is soon made, and if the machine was left alone since the past was `before`, it is `m`. -/
structure Recalls (sc : Scenario) (m : Machine) (before : List Event) (o : Office) : Prop where
  answered : ∀ σ, Fair σ → ∃ n answer, o.Answers sc .capture ((List.range n).map σ) answer
  copied : ∀ turns answer later, o.Answers sc .capture turns answer →
    ((o.advance sc (.call .capture)).run sc turns).past = before ++ later → (∀ e ∈ later, e.Idle) →
      answer = .ok (some m)

/-- A load from a file that has taken the image of `m` was answered.
* It has succeeded if and only if the file can be read and `m` is well-formed.
* It has left the run state alone, if a run that has ended looks stopped and no run has ended with a fault since.
* If it has succeeded, it has replaced the machine, and the clocks may move after it: the next copy is `m` unless one of
  them has touched the machine since it was replaced. -/
structure Brings (sc : Scenario) (m : Machine) (o : Office) (turns : List Turn) (during : List Event)
    (answer : Request.Answer) : Prop where
  accepts : answer = .ok none ↔ o.console.file ≠ .sink ∧ m.WellFormed
  mode_eq : o.console.WorksUnlessStopped → (∀ f, .faulted f ∉ during) →
    ((o.advance sc (.call .load)).run sc turns).console.board.mode = o.console.board.mode
  recalls : answer = .ok none → ∃ who earlier later, during = earlier ++ .replaced who m :: later ∧
    ∀ rest : List Turn, (∀ t ∈ rest, t.isClock = true) →
      (((o.advance sc (.call .load)).run sc turns).run sc (.desk :: rest)).Recalls sc m
        (o.past ++ .called .load :: earlier ++ [.replaced who m])

theorem run_clocks (hapart : sc.Only Happening.Apart) {rest : List Turn} (hrest : ∀ t ∈ rest, t.isClock = true)
    (s : Scene) : ∃ s', ({ toScene := s } : Office).run sc rest = { toScene := s' } ∧ s.Drifts sc s' := by
  induction rest generalizing s with
  | nil => exact ⟨s, rfl, .refl s⟩
  | cons t rest ih =>
    obtain ⟨s', hrun, hdrift⟩ := ih (fun t ht => hrest t (List.mem_cons_of_mem _ ht)) (s.clocked sc t)
    refine ⟨s', ?_, ((Scene.Drifts.refl s).clocked hapart t).trans hdrift⟩
    rw [run_cons, advance_clock sc (hrest t List.mem_cons_self), hrun]

/-- Where nothing is disturbed, a capture brings the copy that was made for it. -/
theorem copied_of_undisturbed (ho : o.Reachable) (hidle : o.task = none) (hapart : sc.Only Happening.Apart)
    (hkeeps : sc.Only Happening.KeepsMode) {f : StateFile} (hundisturbed : Scene.Undisturbed f o.toScene)
    {during : List Event}
    (hpast : ((o.advance sc (.call .capture)).run sc turns).past = o.past ++ .called .capture :: during)
    (hanswers : o.Answers sc .capture turns answer) (hdied : .died ∉ during) :
    ∃ who m, answer = .ok (some m) ∧ .copied who m ∈ during := by
  have hsettles := hanswers.settles ho hidle hapart hpast
  cases answer with
  | ok x =>
    obtain ⟨who, m, rfl, hdeals⟩ := hsettles
    refine ⟨who, m, rfl, List.mem_of_mem_filter (p := Event.isDeal) ?_⟩
    exact (hdeals ▸ List.mem_singleton_self _ : _ ∈ deals during)
  | error e =>
    exfalso
    have hgrants := Scene.grants_undisturbed hkeeps Request.gentle_capture f
    have hwithin := Order.request_within (Action.Undisturbed f) .capture
    have hcalled : Scene.Undisturbed f (o.add (.called .capture)) := { hundisturbed with }
    rcases hanswers.within hidle hapart hgrants hwithin hcalled hpast with ⟨_, he, rfl⟩ | ⟨hblames, -⟩
    · exact hdied he
    · cases hblames e rfl with
      | refused hq => exact Request.gentle_capture.threads hq
      | busy hq => rcases hq with hq | hq <;> cases hq
      | lost hlost => cases hlost

/-- Since the desk of an office was at no request, copies are of what the events have made of the machine. -/
theorem Reachable.traced (ho : o.Reachable) (hidle : o.task = none) (hapart : sc.Only Happening.Apart)
    (turns : List Turn) : o.toScene.Traced sc (o.run sc turns).toScene := by
  have hsound : o.Sound sc fun _ => True := sound_of_rests hidle (ho.rests hidle)
  exact (hsound.run hapart (fun _ _ => trivial) (fun _ _ h hgoes => h.goes hgoes) (.refl o.toScene)).2

/-- **After a load that succeeded** the machine is the one that it has brought, as long as it is left alone. -/
theorem recalls_of_load (ho : o.Reachable) (hidle : o.task = none) (hapart : sc.Only Happening.Apart)
    (hkeeps : sc.Only Happening.KeepsMode) (hheld : o.console.board.mode ≠ .running)
    (hlives : o.console.runner ≠ .died) {earlier later : List Event} {who : Voice}
    (hpast : ((o.advance sc (.call .load)).run sc turns).past =
      o.past ++ .called .load :: (earlier ++ .replaced who m :: later))
    (hanswers : o.Answers sc .load turns (.ok none)) (hdied : .died ∉ earlier ++ .replaced who m :: later)
    {rest : List Turn} (hrest : ∀ t ∈ rest, t.isClock = true) :
    (((o.advance sc (.call .load)).run sc turns).run sc (.desk :: rest)).Recalls sc m
      (o.past ++ .called .load :: earlier ++ [.replaced who m]) := by
  have hundisturbed : Scene.Undisturbed o.console.file ((o.advance sc (.call .load)).run sc turns).toScene := by
    have hwithin := Order.request_within (Action.Undisturbed o.console.file) .load
    have hgrants := Scene.grants_undisturbed hkeeps Request.gentle_load o.console.file
    rcases hanswers.within hidle hapart hgrants hwithin ⟨hheld, rfl, hlives⟩ hpast with ⟨_, he, rfl⟩ | ⟨-, h⟩
    · exact absurd he hdied
    · exact h
  obtain ⟨s, hrun, -⟩ := hanswers
  rw [hrun] at hpast hundisturbed
  obtain ⟨s₁, hclocks, hdrift⟩ := run_clocks hapart hrest (s.add (.answered .load (.ok none)))
  have hlater : ((o.advance sc (.call .load)).run sc turns).run sc (.desk :: rest) = { toScene := s₁ } := by
    rw [hrun, run_cons]
    exact hclocks
  have hwhole : o.run sc (.call .load :: turns ++ .desk :: rest) = { toScene := s₁ } := by
    rw [run_append]
    exact hlater
  have hreachable : ({ toScene := s₁ } : Office).Reachable := hwhole ▸ .run ho hidle hapart _
  rw [hlater]
  constructor
  · have hgrants := Scene.grants_held hkeeps (B := Request.load.bounds) id
    have hanswered : (s.add (.answered .load (.ok none))).console.board.mode ≠ .running := hundisturbed.held
    have hheld₁ : s₁.console.board.mode ≠ .running := (hgrants.drifts hanswered hdrift).resolve_left Scene.not_eventSince
    exact fun σ hfair => held_answered hreachable rfl hapart hkeeps hheld₁ id hfair
  intro turns' answer' later' hanswers' hpast' hall
  obtain ⟨es, hes, -⟩ := Extends.of_drifts hdrift
  obtain ⟨during, hduring⟩ : ∃ during,
      ((({ toScene := s₁ } : Office).advance sc (.call .capture)).run sc turns').past =
        s₁.past ++ .called .capture :: during := by
    obtain ⟨s', hrun', during, hduring, -⟩ := hanswers'
    exact ⟨during, by rw [hrun']; exact hduring⟩
  have hsplit : later' = later ++ .answered .load (.ok none) :: es ++ .called .capture :: during := by
    have hpast : s.past = _ := hpast
    rw [hduring, hes, Scene.add, hpast] at hpast'
    simpa using hpast'.symm
  have hdied' {e : Event} (he : e ∈ later') : e ≠ .died := by
    rintro rfl
    exact hall _ he
  have hundisturbed₁ : Scene.Undisturbed o.console.file s₁ := by
    have hanswered : Scene.Undisturbed o.console.file (s.add (.answered .load (.ok none))) := { hundisturbed with }
    rcases (Scene.grants_undisturbed hkeeps Request.gentle_load _).drifts hanswered hdrift with
      ⟨es', hes', _, he, rfl⟩ | h
    · obtain rfl : es = es' := List.append_cancel_left (hes.symm.trans hes')
      exact absurd rfl (hdied' (by rw [hsplit]; simp [he]))
    · exact h
  obtain ⟨who', m', rfl, hcopied⟩ := copied_of_undisturbed hreachable rfl hapart hkeeps hundisturbed₁ hduring hanswers'
    fun he => hdied' (by rw [hsplit]; simp [he]) rfl
  have htraced := ho.traced hidle hapart (.call .load :: turns ++ .desk :: rest ++ .call .capture :: turns')
  rw [run_append, hwhole, run_cons] at htraced
  have hreplaced : ((({ toScene := s₁ } : Office).advance sc (.call .capture)).run sc turns').past =
      o.past ++ (.called .load :: earlier) ++ .replaced who m :: later' := by
    simpa using hpast'
  have hlater' : .copied who' m' ∈ later' := by
    rw [hsplit]
    simp [hcopied]
  rw [htraced.eq_of_copied hreplaced hlater' hall]

/-- **A load brings what the file has taken.** -/
theorem brings (ho : o.Reachable) (hidle : o.task = none) (hapart : sc.Only Happening.Apart)
    (hkeeps : sc.Only Happening.KeepsMode) (hheld : o.console.board.mode ≠ .running)
    (hlives : o.console.runner ≠ .died) (htook : o.console.file.Took (Image.encode m)) {during : List Event}
    (hpast : ((o.advance sc (.call .load)).run sc turns).past = o.past ++ .called .load :: during)
    (hanswers : o.Answers sc .load turns answer) (hdied : .died ∉ during) : o.Brings sc m turns during answer where
  accepts := (load_answer ho hidle hapart hkeeps hheld hlives hpast hanswers hdied).trans htook.decodes_iff
  mode_eq hworking hfaulted := by
    refine mode_of_load ho hidle hapart hkeeps hheld hworking hpast hanswers ?_
    rintro e he (rfl | ⟨f, rfl⟩)
    · exact hdied he
    · exact hfaulted f he
  recalls := by
    rintro rfl
    obtain ⟨-, who, m', bytes, hread, hdecode, hdeals⟩ := loaded ho hidle hapart hpast hanswers
    obtain ⟨rfl, -, -⟩ := htook.eq_of_decode hread hdecode
    have hmem : .replaced who m' ∈ deals during := hdeals ▸ List.mem_singleton_self _
    obtain ⟨earlier, later, rfl⟩ := List.append_of_mem (List.mem_of_mem_filter hmem)
    refine ⟨who, earlier, later, rfl, ?_⟩
    intro rest hrest
    exact recalls_of_load ho hidle hapart hkeeps hheld hlives hpast hanswers hdied hrest

/-- **What one machine saves every machine can load**, unless somebody has restored an ill-formed one.  In an office with
any history a save has succeeded.  It has made a copy `m`, which is well-formed unless somebody has restored an ill-formed
machine.  In any office with the same state file, which may be the same one or another, let the machine be paused or
stopped, with a runner that is alive or none.
* Under fair turns a load comes to its answer.
* If no runner dies meanwhile, it brings `m`: it succeeds if and only if `m` is well-formed and the file was not a device
  that forgets; it leaves the run state alone; and the next copy, as long as nothing has touched the machine, is `m`. -/
theorem recovers (ho : o.Reachable) (hidle : o.task = none) (hapart : sc.Only Happening.Apart)
    (hsaves : o.Answers sc .save turns (.ok none)) (ho' : o'.Reachable) (hidle' : o'.task = none)
    (hapart' : sc'.Only Happening.Apart) (hkeeps' : sc'.Only Happening.KeepsMode)
    (hfile : o'.console.file = ((o.advance sc (.call .save)).run sc turns).console.file)
    (hheld : o'.console.board.mode ≠ .running) (hlives : o'.console.runner ≠ .died) :
    ∃ who m during, ((o.advance sc (.call .save)).run sc turns).past = o.past ++ .called .save :: during ∧
      .copied who m ∈ during ∧ (Given o.past → m.WellFormed) ∧
      (∀ σ, Fair σ → ∃ n answer, o'.Answers sc' .load ((List.range n).map σ) answer) ∧
      ∀ turns answer during, o'.Answers sc' .load turns answer →
        ((o'.advance sc' (.call .load)).run sc' turns).past = o'.past ++ .called .load :: during →
          .died ∉ during → o'.Brings sc' m turns during answer := by
  obtain ⟨who, m, during, hpast, hdeals, htook, hwell⟩ := saved ho hidle hapart hsaves
  have hmem : .copied who m ∈ deals during := hdeals ▸ List.mem_singleton_self _
  refine ⟨who, m, during, hpast, List.mem_of_mem_filter hmem, hwell, ?_, ?_⟩
  · exact fun σ hfair => held_answered ho' hidle' hapart' hkeeps' hheld id hfair
  · intro turns' answer' during' hanswers' hpast' hdied
    exact brings ho' hidle' hapart' hkeeps' hheld hlives (hfile ▸ htook) hpast' hanswers' hdied

def byTurns (n : Nat) : List Turn := (List.replicate n [.runner true, .desk]).flatten

theorem call_not_mem_byTurns (n : Nat) (q : Request) : .call q ∉ byTurns n := by
  simp [byTurns]

/-- Another program, held. -/
def other : Office := (Office.new {}).run alone (session (.reset [0x60, 0x2A, 0x12, 0x00]) ++ session .pause)

/-- What a save of the program that is held leaves in the state file. -/
def stored : StateFile := ((held.advance alone (.call .save)).run alone (byTurns 8)).console.file

theorem run_file (sc : Scenario) {o : Office} (hidle : o.task = none) (f : StateFile) :
    (o.run sc [.file f]).task = none ∧ (o.run sc [.file f]).console.file = f ∧
      (o.run sc [.file f]).console.board = o.console.board ∧ (o.run sc [.file f]).console.runner = o.console.runner := by
  obtain ⟨s, task⟩ := o
  cases hidle
  exact ⟨rfl, rfl, rfl, rfl⟩

/-- The other program, with that state file. -/
def elsewhere : Office := other.run alone [.file stored]

theorem recovers_held :
    held.Answers alone .save (byTurns 8) (.ok none) ∧ Given held.past ∧ elsewhere.console.file = stored ∧
      elsewhere.console.board.mode = .paused ∧ elsewhere.console.runner ≠ .died ∧
      ∃ m, m.WellFormed ∧ (∃ n answer, elsewhere.Answers alone .load ((List.range n).map inTurn) answer) ∧
        ∀ turns answer during, elsewhere.Answers alone .load turns answer →
          ((elsewhere.advance alone (.call .load)).run alone turns).past = elsewhere.past ++ .called .load :: during →
            .died ∉ during → elsewhere.Brings alone m turns during answer := by
  have hidle : held.task = none := Option.isNone_iff_eq_none.mp duties.2.1
  have honDuty : onDuty.task = none := Option.isNone_iff_eq_none.mp duties.1.1
  have hreachable : held.Reachable := .run (.run (.new {}) rfl (only_alone _) _) honDuty (only_alone _) _
  obtain ⟨hanswer, hall⟩ :
      ((held.advance alone (.call .save)).run alone (byTurns 8)).answer? = some (.save, .ok none) ∧
        (held.past.all fun | .called (.restore _) => false | _ => true) = true := by decide +kernel
  have hsaves : held.Answers alone .save (byTurns 8) (.ok none) :=
    answers_of_answer? (only_alone _) hidle (call_not_mem_byTurns 8) hanswer
  have hgiven : Given held.past := by
    intro m hmem
    cases List.all_eq_true.mp hall _ hmem
  obtain ⟨hnone, hpaused, hlives⟩ :
      other.task.isNone = true ∧ other.console.board.mode = .paused ∧ other.console.runner ≠ .died := by decide +kernel
  have hother : other.task = none := Option.isNone_iff_eq_none.mp hnone
  have hreachable' : elsewhere.Reachable := .run (.run (.new {}) rfl (only_alone _) _) hother (only_alone _) _
  have hrun : elsewhere = other.run alone [.file stored] := rfl
  obtain ⟨hidle', hfile, hboard, hrunner⟩ := run_file alone hother stored
  rw [← hrun] at hidle' hfile hboard hrunner
  rw [← hboard] at hpaused
  rw [← hrunner] at hlives
  have hheld : elsewhere.console.board.mode ≠ .running := by
    rw [hpaused]
    nofun
  obtain ⟨who, m, during, -, -, hwell, hanswered, hbrings⟩ := recovers hreachable hidle (only_alone _) hsaves hreachable'
    hidle' (only_alone _) (only_alone _) hfile hheld hlives
  exact ⟨hsaves, hgiven, hfile, hpaused, hlives, m, hwell hgiven, hanswered inTurn fair_inTurn, hbrings⟩

/-- A machine whose stack is said to be fuller than it can be. -/
def overfull : Machine := { Machine.powerOn with sp := 17 }

/-- A program is held, and somebody has restored that machine. -/
def overfilled : Office :=
  (Office.new {}).run alone (session (.reset [0x12, 0x00]) ++ session .pause ++ session (.restore overfull))

/-- **A lost image.**  The machine that was restored is saved, and the save succeeds.  The next thing is a load, which
refuses the image. -/
theorem lost_image :
    overfilled.console.board.mode = .paused ∧ overfilled.Answers alone .save (byTurns 7) (.ok none) ∧
      (overfilled.run alone (.call .save :: byTurns 8)).console.board.mode = .paused ∧
      (overfilled.run alone (.call .save :: byTurns 8)).Answers alone .load (byTurns 2)
        (.error (.invalidImage (.stackPointer 17))) := by
  obtain ⟨⟨hnone, hpaused, hsaved⟩, hnone', hpaused', hloaded⟩ :
      (overfilled.task.isNone = true ∧ overfilled.console.board.mode = .paused ∧
        ((overfilled.advance alone (.call .save)).run alone (byTurns 7)).answer? = some (.save, .ok none)) ∧
      (overfilled.run alone (.call .save :: byTurns 8)).task.isNone = true ∧
        (overfilled.run alone (.call .save :: byTurns 8)).console.board.mode = .paused ∧
          (((overfilled.run alone (.call .save :: byTurns 8)).advance alone (.call .load)).run alone (byTurns 2)).answer? =
            some (.load, .error (.invalidImage (.stackPointer 17))) := by
    decide +kernel
  have hidle := Option.isNone_iff_eq_none.mp hnone
  have hidle' := Option.isNone_iff_eq_none.mp hnone'
  exact ⟨hpaused, answers_of_answer? (only_alone _) hidle (call_not_mem_byTurns 7) hsaved, hpaused',
    answers_of_answer? (only_alone _) hidle' (call_not_mem_byTurns 2) hloaded⟩

end Office

end ChipEight
