import ChipEight.Proofs.Office.Copies

/-!
# The history of an office

Calls of the methods of `Machine`, one after the other, and the moves of both threads among them.

* `Order.meets` : what every request leaves, whatever its answer is.
* `Office.Sound` : either nobody has asked for anything, or the desk is on the way to such an answer.
* `Scene.Goes` : what one turn can do in a sound office.
* `Office.Sound.run` : sound offices stay sound, and what every turn keeps is kept by all of them.
* `Office.Reachable` : the offices with a history.
-/

namespace ChipEight

open Procedure (Secures Leads)
open Scene (Fits Stands Rests Firm)

/-! ### Requests -/

/-- The machine that an answer brings, and the copies and replacements that were made for it. -/
def Request.Settles : Request → Request.Answer → List Event → Prop
  | .capture, .ok x, ds => ∃ who m, x = some m ∧ ds = [.copied who m]
  | .capture, .error e, ds => e = .disconnected ∧ ds = []
  | .stop, .error e, ds => ds = [] ∧ (e = .disconnected ∨ ∃ f, e = .fault f)
  | .restore m, .ok x, ds => x = none ∧ ∃ who, ds = [.replaced who m]
  | .save, .ok x, ds => x = none ∧ ∃ who m, ds = [.copied who m]
  | .save, .error _, ds => ds = [] ∨ ∃ who m, ds = [.copied who m]
  | .load, .ok x, ds => x = none ∧ ∃ who m, ds = [.replaced who m]
  | _, .ok x, ds => x = none ∧ ds = []
  | _, .error _, ds => ds = []

/-- Where the desk stands when it answers; when it ends a run by request, it has the last fault in hand. -/
def Request.Leaves (q : Request) (answer : Request.Answer) (ds : List Event) (s : Scene) : Prop :=
  match q, answer with
  | .stop, .ok _ => s.Stands ds false false false (.inHand none)
  | .stop, .error (.fault f) => s.Stands ds false false false (.inHand (some f))
  | _, .error (.fault _) => False
  | _, _ => s.Rests ds

/-- The answer fits what was done since the request, before which the machine was copied and replaced so. -/
structure Request.Meets (q : Request) (ds : List Event) (answer : Request.Answer) (s : Scene) : Prop where
  perished : answer = .error .disconnected → Perished s.past
  leaves : ∃ ds', q.Settles answer ds' ∧ q.Leaves answer (ds ++ ds') s

namespace Order

variable {sc : Scenario} {q role : Request} {s : Scene} {ds : List Event}

theorem firm_leaves {answer : Request.Answer} : Firm sc (q.Leaves answer ds) := by
  unfold Request.Leaves
  split
  · exact Scene.firm_stands
  · exact Scene.firm_stands
  · exact ⟨fun h => h.elim, fun h => h.elim⟩
  · exact Scene.firm_rests

theorem firm_meets {answer : Request.Answer} : Firm sc (q.Meets ds answer) where
  moves h hmoves := by
    obtain ⟨hperished, ds', hsettles, hleaves⟩ := h
    exact ⟨fun he => (hperished he).append hmoves.not_begun, ds', hsettles, firm_leaves.moves hleaves hmoves⟩
  unmoved h hc := by
    obtain ⟨hperished, ds', hsettles, hleaves⟩ := h
    have hfirm : Firm sc (q.Leaves answer (ds ++ ds')) := firm_leaves
    exact ⟨hperished, ds', hsettles, hfirm.unmoved hleaves hc⟩

theorem reset_secures {program : List UInt8} (hq : ∃ program, q = .reset program) (h : s.Rests ds) :
    (reset program).run.Secures sc (Fits sc q)
      (fun answer s => s.Rests ds ∧ ∀ e, answer = .error e → Honest e s) s := by
  cases hp : Processor.withProgram? program with
  | none =>
    unfold reset
    rw [hp]
    exact Secures.done ⟨h, fun e he => by cases he; exact honest_of_ne nofun nofun⟩
  | some p =>
    refine Leads.trans (reset_leads sc hp hq h) fun rest s₁ ⟨hrest, hready⟩ => ?_
    subst hrest
    have hfault : s₁.console.board.fault = none := by rw [hready.board]
    refine (launch_secures hready.stands hfault).mono fun answer s₂ hend => ⟨hend.1, fun e he => ?_⟩
    obtain rfl := hend.2.1 e he
    exact honest_of_ne nofun nofun

theorem pause_secures (h : s.Rests ds) : pause.Secures sc (Fits sc q) (fun _ => Rests ds) s := by
  refine Leads.inert Scene.firm_rests trivial h fun mode s h => ?_
  cases mode with
  | running =>
    refine Leads.inert Scene.firm_rests trivial h fun _ s h => ?_
    exact Leads.inert Scene.firm_rests trivial h fun _ s h => Secures.done h
  | stopped | paused => exact Secures.done h

theorem resume_secures (h : s.Rests ds) : resume.Secures sc (Fits sc q) (fun _ => Rests ds) s := by
  refine Leads.inert Scene.firm_rests trivial h fun mode s h => ?_
  cases mode with
  | paused =>
    refine Leads.inert Scene.firm_rests trivial h fun _ s h => ?_
    exact Leads.inert Scene.firm_rests trivial h fun _ s h => Secures.done h
  | stopped | running => exact Secures.done h

theorem setRate_secures {hz : UInt32} (h : s.Rests ds) : (setRate hz).Secures sc (Fits sc q) (fun _ => Rests ds) s := by
  refine Leads.inert Scene.firm_rests trivial h fun _ s h => ?_
  refine Leads.inert Scene.firm_rests trivial h fun _ s h => ?_
  exact Leads.inert Scene.firm_rests trivial h fun _ s h => Secures.done h

theorem leaves_of_honest {e : DeskError} (he : Honest e s) (h : s.Rests ds) : q.Leaves (.error e) ds s := by
  cases e with
  | fault f => exact absurd rfl (he.1 f)
  | _ => cases q <;> exact h

theorem meets_of_honest {e : DeskError} (hq : q.Settles (.error e) []) (he : Honest e s) (h : s.Rests ds) :
    q.Meets ds (.error e) s := by
  refine ⟨fun hlost => he.2 (Except.error.inj hlost), [], hq, ?_⟩
  rw [List.append_nil]
  exact leaves_of_honest he h

theorem meets_of_rests (hq : q.Settles (.ok none) []) (hleaves : q.Leaves (.ok none) ds s) :
    q.Meets ds (.ok none) s := by
  refine ⟨nofun, [], hq, ?_⟩
  rwa [List.append_nil]

/-- **Every request** leaves what fits its answer, whatever the clocks do in the meantime. -/
theorem meets (q : Request) (h : s.Rests ds) : q.order.run.Secures sc (Fits sc q) (q.Meets ds) s := by
  cases q with
  | reset program =>
    refine Secures.andThen (reset_secures ⟨program, rfl⟩ h) (fun _ s h => ?_) fun e s h => ?_
    · exact Secures.done (meets_of_rests ⟨rfl, rfl⟩ h.1)
    · exact Secures.done (meets_of_honest rfl (h.2 e rfl) h.1)
  | start =>
    refine Secures.andThen (start_secures h) (fun _ s h => ?_) fun e s h => ?_
    · exact Secures.done (meets_of_rests ⟨rfl, rfl⟩ h.1)
    · have he : Honest e s := by
        rcases h.2 e rfl with rfl | ⟨rfl, hperished⟩
        · exact honest_of_ne nofun nofun
        · exact honest_disconnected hperished
      exact Secures.done (meets_of_honest rfl he h.1)
  | stop =>
    refine Secures.andThen (stop_secures h) (fun _ s h => ?_) fun e s h => ?_
    · exact Secures.done (meets_of_rests ⟨rfl, rfl⟩ h)
    · cases e with
      | fault f =>
        refine Secures.done ⟨nofun, [], ⟨rfl, .inr ⟨f, rfl⟩⟩, ?_⟩
        rw [List.append_nil]
        exact h
      | disconnected => exact Secures.done (meets_of_honest ⟨rfl, .inl rfl⟩ (honest_disconnected h.2.1) ⟨false, h.2.2⟩)
      | romTooLarge | system | invalidImage | busy => cases h.1
  | pause => exact Secures.lift (pause_secures h) fun _ s h => Secures.done (meets_of_rests ⟨rfl, rfl⟩ h)
  | resume => exact Secures.lift (resume_secures h) fun _ s h => Secures.done (meets_of_rests ⟨rfl, rfl⟩ h)
  | setRate hz => exact Secures.lift (setRate_secures h) fun _ s h => Secures.done (meets_of_rests ⟨rfl, rfl⟩ h)
  | capture =>
    refine Secures.andThen (capture_secures (.inl rfl) h) (fun m s h => ?_) fun e s h => ?_
    · obtain ⟨who, h⟩ := h
      exact Secures.done ⟨nofun, _, ⟨who, m, rfl, rfl⟩, h⟩
    · obtain ⟨rfl, hperished, h⟩ := h
      exact Secures.done (meets_of_honest ⟨rfl, rfl⟩ (honest_disconnected hperished) h)
  | restore m =>
    refine Secures.andThen (restore_secures (.inl rfl) h) (fun _ s h => ?_) fun e s h => ?_
    · obtain ⟨who, h⟩ := h
      exact Secures.done ⟨nofun, _, ⟨rfl, who, rfl⟩, h⟩
    · exact Secures.done (meets_of_honest rfl h.1 h.2)
  | save =>
    refine Secures.andThen (save_secures (.inr rfl) h) (fun _ s h => ?_) fun e s h => ?_
    · obtain ⟨who, m, h, -⟩ := h
      exact Secures.done ⟨nofun, _, ⟨rfl, who, m, rfl⟩, h⟩
    · rcases h with ⟨he, h | ⟨who, m, h⟩⟩
      · exact Secures.done (meets_of_honest (.inl rfl) he h)
      · exact Secures.done ⟨fun hlost => he.2 (Except.error.inj hlost), _, .inr ⟨who, m, rfl⟩, leaves_of_honest he h⟩
  | load =>
    refine Secures.andThen (load_secures rfl h) (fun _ s h => ?_) fun e s h => ?_
    · obtain ⟨who, m, -, -, -, h⟩ := h
      exact Secures.done ⟨nofun, _, ⟨rfl, who, m, rfl⟩, h⟩
    · exact Secures.done (meets_of_honest rfl h.1 h.2)

end Order

/-! ### Turns -/

namespace Request

/-- Since the past was `before`, somebody has asked for `q` and waits for the answer. -/
def Asks (q : Request) (before : List Event) (past : List Event) : Prop :=
  ∃ during, past = before ++ .called q :: during ∧ ∀ e ∈ during, e.Inner

end Request

open Request in
/-- Nobody has asked for anything; or the desk is on the way to an answer that fits, in a role that the turns `T`
allow. -/
inductive Office.Sound (sc : Scenario) (T : Turn → Prop) : Office → Prop
  | idle {s : Scene} (h : s.Rests (deals s.past)) : Sound sc T { toScene := s, task := none }
  | busy {s s₁ : Scene} {q role : Request} {p : Procedure Request.Answer} {before : List Event} (hrole : T (.call role))
    (hallows : ∀ a, role.Allows a → q.Allows a) (hasks : q.Asks before s.past)
    (hsecures : p.Secures sc (Fits sc role) (q.Meets (deals before)) s₁) (hdrift : s₁.Drifts sc s) :
    Sound sc T { toScene := s, task := some (q, p) }

theorem Request.Leaves.rests_or_tells {q : Request} {answer : Request.Answer} {s : Scene} {ds : List Event}
    (h : q.Leaves answer ds s) :
    s.Rests ds ∧ (∀ f, answer ≠ .error (.fault f)) ∨
      ∃ f, q = .stop ∧ answer = .error (.fault f) ∧ s.Stands ds false false false (.inHand (some f)) := by
  rcases answer with e | x
  · cases e with
    | fault f =>
      cases q with
      | stop => exact .inr ⟨f, rfl, rfl, h⟩
      | _ => exact h.elim
    | _ => cases q <;> exact .inl ⟨h, nofun⟩
  · cases q with
    | stop => exact .inl ⟨⟨false, Scene.Stands.of_inHand h⟩, nofun⟩
    | _ => exact .inl ⟨h, nofun⟩

theorem Request.Meets.settles {q : Request} {answer : Request.Answer} {s : Scene} {before during : List Event}
    (h : q.Meets (deals before) answer s) (hpast : s.past = before ++ .called q :: during) :
    q.Settles answer (deals during) := by
  obtain ⟨-, ds, hsettles, hleaves⟩ := h
  have hall : deals s.past = deals before ++ ds := by
    rcases hleaves.rests_or_tells with ⟨⟨a, hstands⟩, -⟩ | ⟨f, -, -, hstands⟩
    · exact hstands.deals
    · exact hstands.deals
  have hdeals : deals during = ds := by
    rw [hpast, deals_append] at hall
    exact List.append_cancel_left hall
  rwa [hdeals]

/-- What one turn can do in a sound office, when the turns are as `T` says. -/
inductive Scene.Goes (sc : Scenario) (T : Turn → Prop) (s : Scene) : Scene → Prop
  | stays : Goes sc T s s
  | moves {c es} (hwhen : s.Rests (deals s.past) ∨ ∃ q, Asked q s.past) (hmoves : s.console.Moves sc c es) :
    Goes sc T s ⟨c, s.past ++ es⟩
  | acts {role a x c} (hrole : T (.call role)) (hasked : ∃ q, Asked q s.past ∧ q.Allows a) (hfits : s.Fits sc role a)
    (hact : s.console.act a = some (x, c)) : Goes sc T s (s.did a x c)
  | called {q} (hq : T (.call q)) (h : s.Rests (deals s.past)) : Goes sc T s (s.add (.called q))
  | answered {q answer before} (hasks : q.Asks before s.past) (hmeets : q.Meets (deals before) answer s) :
    Goes sc T s (s.add (.answered q answer))
  | refused {n} (hn : T (.refuse n)) (h : s.Rests (deals s.past)) :
    Goes sc T s ⟨{ s.console with refusal := n }, s.past⟩
  | filed {f} (hf : T (.file f)) (h : s.Rests (deals s.past)) : Goes sc T s ⟨{ s.console with file := f }, s.past⟩

namespace Office

variable {sc : Scenario} {T : Turn → Prop} {o : Office}

theorem rests_of_meets {q : Request} {answer : Request.Answer} {s : Scene} {ds : List Event} (h : q.Meets ds answer s) :
    (s.add (.answered q answer)).Rests (deals (s.add (.answered q answer)).past) := by
  obtain ⟨-, ds', -, hleaves⟩ := h
  rcases hleaves.rests_or_tells with ⟨⟨a, hrests⟩, hfault⟩ | ⟨f, rfl, rfl, hstands⟩
  · exact Scene.Rests.self ⟨a, hrests.add (Event.plain_answered q hfault)⟩
  · exact Scene.Rests.self ⟨false, (hstands.tells rfl).of_inHand⟩

theorem Sound.work (h : o.Sound sc T) : o.work.Sound sc T ∧ o.toScene.Goes sc T o.work.toScene := by
  cases h with
  | idle h => exact ⟨.idle h, .stays⟩
  | @busy s s₁ q role p before hrole hallows hasks hsecures hdrift =>
    unfold work
    cases hsecures with
    | here hend =>
      obtain ⟨answer, rfl, hmeets⟩ := hend
      replace hmeets := Order.firm_meets.drifts hmeets hdrift
      exact ⟨.idle (rests_of_meets hmeets), .answered hasks hmeets⟩
    | @act a next _ hfits hnext =>
      dsimp only
      cases hact : s.console.act a with
      | none => exact ⟨.busy hrole hallows hasks (.act hfits hnext) hdrift, .stays⟩
      | some done =>
        obtain ⟨x, c⟩ := done
        have hasked : ∃ q, Asked q s.past ∧ q.Allows a := ⟨q, ⟨before, hasks⟩, hallows a (hfits s hdrift).1⟩
        obtain ⟨during, hpast, hinner⟩ := hasks
        refine ⟨.busy hrole hallows ?_ (hnext s hdrift x c hact) (.refl _), .acts hrole hasked (hfits s hdrift) hact⟩
        refine ⟨during ++ a.events x, ?_, fun e he => ?_⟩
        · rw [Scene.did, hpast, List.append_assoc, List.cons_append]
        · rcases List.mem_append.mp he with he | he
          · exact hinner e he
          · exact a.inner_of_mem_events he

theorem Sound.moves (h : o.Sound sc T) {c : Console} {es : List Event} (hmoves : o.console.Moves sc c es) :
    ({ o with console := c, past := o.past ++ es } : Office).Sound sc T ∧ o.toScene.Goes sc T ⟨c, o.past ++ es⟩ := by
  cases h with
  | idle h => exact ⟨.idle (h.moves hmoves).self, .moves (.inl h) hmoves⟩
  | @busy s s₁ q role p before hrole hallows hasks hsecures hdrift =>
    refine ⟨.busy hrole hallows ?_ hsecures (hdrift.trans (.of_moves hmoves)), .moves (.inr ⟨q, before, hasks⟩) hmoves⟩
    obtain ⟨during, hpast, hinner⟩ := hasks
    refine ⟨during ++ es, ?_, fun e he => ?_⟩
    · rw [hpast, List.append_assoc, List.cons_append]
    · rcases List.mem_append.mp he with he | he
      · exact hinner e he
      · exact hmoves.inner e he

/-- **One turn** leaves a sound office sound. -/
theorem Sound.advance (h : o.Sound sc T) (hsc : sc.Only Happening.Apart) {t : Turn} (ht : T t) :
    (o.advance sc t).Sound sc T ∧ o.toScene.Goes sc T (o.advance sc t).toScene := by
  cases t with
  | runner due =>
    simp only [Office.advance]
    split
    · next r hlive => exact h.moves (Console.moves_runner hsc hlive due)
    · exact ⟨h, .stays⟩
  | metronome due fatal =>
    simp only [Office.advance]
    split
    · next m hlive => exact h.moves (Console.moves_metronome hlive fatal due)
    · exact ⟨h, .stays⟩
  | desk => exact h.work
  | call q =>
    cases h with
    | busy hrole hallows hasks hsecures hdrift => exact ⟨.busy hrole hallows hasks hsecures hdrift, .stays⟩
    | @idle s h =>
      refine ⟨.busy ht (fun _ h => h) ⟨[], rfl, nofun⟩ ?_ (.refl _), .called ht h⟩
      obtain ⟨a, h⟩ := h
      exact Order.meets q ⟨a, h.add (Event.plain_called q)⟩
  | refuse n =>
    cases h with
    | busy hrole hallows hasks hsecures hdrift => exact ⟨.busy hrole hallows hasks hsecures hdrift, .stays⟩
    | idle h => exact ⟨.idle (h.unmoved ⟨rfl, rfl, rfl, rfl, rfl, rfl⟩), .refused ht h⟩
  | file f =>
    cases h with
    | busy hrole hallows hasks hsecures hdrift => exact ⟨.busy hrole hallows hasks hsecures hdrift, .stays⟩
    | idle h => exact ⟨.idle (h.unmoved ⟨rfl, rfl, rfl, rfl, rfl, rfl⟩), .filed ht h⟩

/-- **Any number of turns**: the office stays sound, and what every turn keeps is kept. -/
theorem Sound.run (h : o.Sound sc T) (hsc : sc.Only Happening.Apart) {turns : List Turn} (hturns : ∀ t ∈ turns, T t)
    {J : Scene → Prop} (hJ : ∀ s s', J s → s.Goes sc T s' → J s') (ho : J o.toScene) :
    (o.run sc turns).Sound sc T ∧ J (o.run sc turns).toScene := by
  induction turns generalizing o with
  | nil => exact ⟨h, ho⟩
  | cons t turns ih =>
    obtain ⟨hsound, hgoes⟩ := h.advance hsc (hturns t List.mem_cons_self)
    exact ih hsound (fun t ht => hturns t (List.mem_cons_of_mem _ ht)) (hJ _ _ ho hgoes)

theorem rests_new (s : Settings) : (Office.new s).Rests [] :=
  ⟨false, ⟨rfl, rfl, rfl, nofun, rfl, rfl⟩, rfl, rfl, rfl⟩

theorem sound_new (s : Settings) : (Office.new s).Sound sc T := .idle (rests_new s).self

/-- The offices with a history: any turns in any surroundings that send nothing to the runner.  The surroundings may be
others after the desk was at rest. -/
inductive Reachable : Office → Prop
  | new (s : Settings) : Reachable (.new s)
  | run {o : Office} {sc : Scenario} (h : Reachable o) (hidle : o.task = none) (hsc : sc.Only Happening.Apart)
    (turns : List Turn) : Reachable (o.run sc turns)

theorem Sound.rests (h : o.Sound sc T) (hidle : o.task = none) : o.Rests (deals o.past) := by
  cases h with
  | idle h => exact h
  | busy => cases hidle

theorem sound_of_rests (hidle : o.task = none) (h : o.Rests (deals o.past)) : o.Sound sc T := by
  obtain ⟨s, task⟩ := o
  cases hidle
  exact .idle h

theorem Reachable.rests (h : o.Reachable) (hidle : o.task = none) : o.Rests (deals o.past) := by
  induction h with
  | new s => exact (rests_new s).self
  | @run o sc h hidle' hsc turns ih =>
    have hsound : o.Sound sc fun _ => True := sound_of_rests hidle' (ih hidle')
    exact (hsound.run hsc (fun _ _ => trivial) (J := fun _ => True) (fun _ _ _ _ => trivial) trivial).1.rests hidle

/-! ### An office that can be watched -/

/-- Somebody comes with a request; then desk, runner and metronome take turns forty times. -/
def session (q : Request) : List Turn :=
  .call q :: (List.replicate 40 [.desk, .runner true, .metronome true false]).flatten

/-- Nobody holds a key, and nothing happens during a call. -/
def alone : Scenario := { Surroundings.quiet with }

theorem only_alone (P : Happening → Prop) : alone.Only P := fun _ => ⟨nofun, nofun⟩

end Office

end ChipEight
