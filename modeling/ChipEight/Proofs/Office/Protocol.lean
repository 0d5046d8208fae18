import ChipEight.Proofs.Office.History
import ChipEight.Proofs.Replay

/-!
# What is copied and replaced

Jobs and replies of `snapshot` and `restore` cross the end of a run in any way there is: it may come before a job is
sent, before it is taken, or before the reply is collected.  Nothing is lost or done twice.

* `Event.befall`, `replay` : what the events of a past make of a core.
* `Tracks` : the console holds what its past tells.
* `Event.Deals` : what an event says about copies and replacements.
* `Office.protocol` : any history.
-/

namespace ChipEight

/-- What an event makes of a core. -/
def Event.befall (o : Surroundings) (k : Core) : Event → Core
  | .stepped => (k.perform o .step).2
  | .ticked => (k.perform o .tick).2
  | .replaced _ m => (k.perform o (.restore m)).2
  | .cleared => (k.perform o .reset).2
  | .seated p => { k with processor := p }
  | .died | .lost => { k with processor := .powerOn }
  | _ => k

/-- What the events of a past make of a core, one after the other. -/
def replay (o : Surroundings) (k : Core) (past : List Event) : Core := past.foldl (Event.befall o) k

theorem replay_append (o : Surroundings) (k : Core) (past es : List Event) :
    replay o k (past ++ es) = replay o (replay o k past) es := List.foldl_append

namespace Core.Alike

variable {o : Surroundings} {c c' c'' : Core}

theorem of_same (h : Alike o c o c') (hmachine : c''.machine = c'.machine) (hasked : c''.tally.asked = c'.tally.asked)
    (hdrawn : c''.tally.drawn = c'.tally.drawn) : Alike o c o c'' where
  machine_eq := hmachine.trans h.machine_eq
  echoes := by
    refine ⟨fun n => ?_, fun n => ?_⟩
    · rw [hasked]
      exact h.echoes.key_eq n
    · rw [hdrawn]
      exact h.echoes.random_eq n

theorem seat (h : Alike o c o c') (p : Processor) : Alike o { c with processor := p } o { c' with processor := p } where
  machine_eq := by
    have hm := h.machine_eq
    have htimers : c'.board.timers = c.board.timers := congrArg Machine.toTimers hm
    have hscreen : c'.board.screen = c.board.screen := congrArg Machine.screen hm
    simp only [machine, Board.machine, htimers, hscreen]
  echoes := h.echoes

end Core.Alike

theorem Console.machine_of_none {c : Console} (h : c.runner = .none) : c.machine = c.board.machine c.desk.parked := by
  unfold machine processor
  rw [h]

/-- The console holds what these events have made of the core `k`. -/
def Tracks (o : Surroundings) (k : Core) (past : List Event) (c : Console) : Prop :=
  (replay o k past).Alike o o (c.core c.processor)

namespace Tracks

variable {sc : Scenario} {o : Surroundings} {k : Core} {past es : List Event} {c c' : Console}

theorem machine_eq (h : Tracks o k past c) : c.machine = (replay o k past).machine := Core.Alike.machine_eq h

theorem same (h : Tracks o k past c) (hes : ∀ k : Core, replay o k es = k) (hmachine : c'.machine = c.machine)
    (hasked : c'.tally.asked = c.tally.asked) (hdrawn : c'.tally.drawn = c.tally.drawn) :
    Tracks o k (past ++ es) c' := by
  unfold Tracks
  rw [replay_append, hes]
  exact Core.Alike.of_same h hmachine hasked hdrawn

theorem perform {e : Event} (h : Tracks o k past c) (op : Core.Op) (he : ∀ k : Core, e.befall o k = (k.perform o op).2)
    (hmachine : c'.machine = ((c.core c.processor).perform o op).2.machine)
    (htally : c'.tally = ((c.core c.processor).perform o op).2.tally) : Tracks o k (past ++ [e]) c' := by
  have halike := (Core.alike_perform h op).2
  unfold Tracks
  rw [replay_append, replay, List.foldl_cons, List.foldl_nil, he]
  exact halike.of_same hmachine (congrArg Tally.asked htally) (congrArg Tally.drawn htally)

theorem seats {p : Processor} (h : Tracks o k past c) (hes : ∀ k : Core, replay o k es = { k with processor := p })
    (hmachine : c'.machine = c.board.machine p) (hasked : c'.tally.asked = c.tally.asked)
    (hdrawn : c'.tally.drawn = c.tally.drawn) : Tracks o k (past ++ es) c' := by
  unfold Tracks
  rw [replay_append, hes]
  exact (Core.Alike.seat h p).of_same hmachine hasked hdrawn

/-- A move of a clock does what is remembered of it. -/
theorem moves (h : Tracks sc.toSurroundings k past c) (hmoves : c.Moves sc c' es) :
    Tracks sc.toSurroundings k (past ++ es) c' := by
  have hprocessor {r : Runner} (hlive : c.runner = .live r) : c.processor = r.processor := by
    unfold Console.processor
    rw [hlive]
  cases hmoves with
  | pass hlive | fail hlive | leave hlive =>
    refine h.same (fun _ => rfl) ?_ rfl rfl
    unfold Console.machine
    rw [hprocessor hlive]
    rfl
  | copy hlive => exact h.same (fun _ => rfl) rfl rfl rfl
  | install hlive => exact h.perform (.restore _) (fun _ => rfl) rfl rfl
  | step hlive =>
    refine h.perform .step (fun _ => rfl) ?_ ?_
    · rw [hprocessor hlive]
      rfl
    · rw [hprocessor hlive]
      rfl
  | @die r hlive hstage mode rate journal hmode hcause =>
    have hstepped : Tracks sc.toSurroundings k (past ++ [.stepped]) (c.stepped sc r r.stage) := by
      refine h.perform .step (fun _ => rfl) ?_ ?_
      · rw [hprocessor hlive]
        rfl
      · rw [hprocessor hlive]
        rfl
    rw [show past ++ [Event.stepped, .died] = past ++ [.stepped] ++ [.died] by simp]
    exact hstepped.seats (p := .powerOn) (fun _ => rfl) rfl rfl rfl
  | tick hhere => exact h.perform .tick (fun _ => rfl) rfl rfl
  | hush hhere metronome hstays tally htally =>
    rcases htally with rfl | rfl
    · exact h.same (fun _ => rfl) rfl rfl rfl
    · exact h.same (fun _ => rfl) rfl rfl rfl

/-- An action that fits does what is remembered of it. -/
theorem acts {s : Scene} {role : Request} {a : Action} {x : a.Answer} (h : Tracks o k past s.console)
    (hfits : s.Fits sc role a) (hact : s.console.act a = some (x, c')) : Tracks o k (past ++ a.events x) c' := by
  cases a with
  | park p =>
    cases hact
    exact h.seats (fun _ => rfl) (Console.machine_of_none hfits.2) rfl rfl
  | replaceParked m =>
    cases hact
    exact h.perform (.restore m) (fun _ => rfl) (Console.machine_of_none hfits.2) rfl
  | resetBoard =>
    cases hact
    exact h.perform .reset (fun _ => rfl) rfl rfl
  | spawnRunner =>
    rcases Console.of_spawnRunner hact with ⟨rfl, -, rfl⟩ | ⟨rfl, -, rfl⟩
    · exact h.seats (p := .powerOn) (fun _ => rfl) (Console.machine_of_none (c := s.console.bereft) hfits.2) rfl rfl
    · exact h.same (fun _ => rfl) (Console.machine_of_none hfits.2).symm rfl rfl
  | joinRunner =>
    rcases Console.of_joinRunner hact with ⟨-, -, rfl⟩ | ⟨p, hrunner, -, rfl⟩ | ⟨hrunner, -, rfl⟩
    · exact h.same (fun _ => rfl) rfl rfl rfl
    all_goals
      refine h.same (fun _ => rfl) ?_ rfl rfl
      unfold Console.machine Console.processor
      rw [hrunner]
  | spawnMetronome =>
    rcases Console.of_spawnMetronome hact with ⟨rfl, -, rfl⟩ | ⟨rfl, -, rfl⟩ <;> exact h.same (fun _ => rfl) rfl rfl rfl
  | joinMetronome =>
    obtain ⟨rfl, -⟩ := Console.of_joinMetronome hact
    exact h.same (fun _ => rfl) rfl rfl rfl
  | post j =>
    rcases Console.of_post hact with ⟨r, -, -, rfl⟩ | ⟨-, -, rfl⟩ <;> exact h.same (fun _ => rfl) rfl rfl rfl
  | collect ticket =>
    rcases Console.of_collect hact with ⟨r, -, -, rfl⟩ | ⟨-, -, rfl⟩ <;> exact h.same (fun _ => rfl) rfl rfl rfl
  | createFile =>
    rcases Console.of_createFile hact with ⟨file, -, -, rfl⟩ | ⟨e, -, -, rfl⟩ <;> exact h.same (fun _ => rfl) rfl rfl rfl
  | appendFile bytes =>
    rcases Console.of_appendFile hact with ⟨file, -, -, rfl⟩ | ⟨e, -, -, rfl⟩ <;>
      exact h.same (fun _ => rfl) rfl rfl rfl
  | note n =>
    cases hact
    cases n <;> exact h.same (fun _ => rfl) rfl rfl rfl
  | _ =>
    cases hact
    exact h.same (fun _ => rfl) rfl rfl rfl

end Tracks

theorem Console.jobs_or_post {c c' : Console} {a : Action} {x : a.Answer} (hact : c.act a = some (x, c')) :
    (∀ job ∈ c'.mail.jobs, job ∈ c.mail.jobs) ∨
      ∃ j ticket, a = .post j ∧ ∀ job ∈ c'.mail.jobs, job ∈ c.mail.jobs ∨ job = (ticket, j) := by
  rcases (footprint_of_act hact).jobs with hsame | hnone | ⟨j, rfl, hjobs⟩
  · exact .inl fun _ hjob => hsame ▸ hjob
  · rw [hnone]
    exact .inl (List.forall_mem_nil _)
  · refine .inr ⟨j, c.mail.next, rfl, fun job hjob => ?_⟩
    rw [hjobs, List.mem_append, List.mem_singleton] at hjob
    exact hjob

/-- What an event says about copies and replacements; `o` has given the answers so far, and the first core was `k`.
* The machine is copied as the past has left it, between two instructions.
* It is copied and replaced only for somebody who waits for it.
* An answer settles what was copied and replaced since the request. -/
def Event.Deals (o : Surroundings) (k : Core) (before : List Event) : Event → Prop
  | .copied _ m => m = (replay o k before).machine ∧ ∃ q, Asked q before ∧ q.Copies
  | .replaced _ m => ∃ q, Asked q before ∧ q.Replaces m
  | .answered q answer =>
    (∃ earlier during, before = earlier ++ .called q :: during ∧ (∀ e ∈ during, e.Inner) ∧
      q.Settles answer (deals during)) ∧ (answer = .error .disconnected → Perished before)
  | _ => True

namespace Scene

variable {sc : Scenario} {k : Core} {s s' : Scene} {T : Turn → Prop}

def Backs (s : Scene) : Prop := ∀ job ∈ s.console.mail.jobs, ∃ q, Asked q s.past ∧ q.Allows (.post job.2)

theorem backs_of_rests {ds : List Event} {past : List Event} (h : s.Rests ds) : Backs ⟨s.console, past⟩ := by
  obtain ⟨a, h⟩ := h
  intro job hjob
  rw [h.jobs] at hjob
  cases hjob

theorem Backs.append {c : Console} {es : List Event} (h : s.Backs) (hes : ∀ e ∈ es, e.Inner)
    (hjobs : ∀ job ∈ c.mail.jobs, job ∈ s.console.mail.jobs) : Backs ⟨c, s.past ++ es⟩ := by
  intro job hjob
  obtain ⟨q, hasked, hallows⟩ := h job (hjobs job hjob)
  exact ⟨q, hasked.append hes, hallows⟩

theorem Backs.moves {c : Console} {es : List Event} (h : s.Backs) (hmoves : s.console.Moves sc c es) :
    Backs ⟨c, s.past ++ es⟩ := by
  refine h.append hmoves.inner fun job hjob => ?_
  cases hmoves with
  | copy hlive hstage hjobs | install hlive hstage hjobs =>
    rw [hjobs]
    exact List.mem_cons_of_mem _ hjob
  | die | leave => cases hjob
  | _ => exact hjob

theorem Backs.acts {a : Action} {x : a.Answer} {c : Console} (h : s.Backs)
    (hasked : ∃ q, Asked q s.past ∧ q.Allows a) (hact : s.console.act a = some (x, c)) : (s.did a x c).Backs := by
  have hinner : ∀ e ∈ a.events x, e.Inner := fun e he => a.inner_of_mem_events he
  rcases Console.jobs_or_post hact with hjobs | ⟨j, ticket, rfl, hjobs⟩
  · exact h.append hinner hjobs
  · intro job hjob
    rcases hjobs job hjob with hold | rfl
    · obtain ⟨q, hq, hallows⟩ := h job hold
      exact ⟨q, hq.append hinner, hallows⟩
    · obtain ⟨q, hq, hallows⟩ := hasked
      exact ⟨q, hq.append hinner, hallows⟩

theorem deals_goes
    (h : Tracks sc.toSurroundings k s.past s.console ∧ s.Backs ∧ Each (Event.Deals sc.toSurroundings k) s.past)
    (hgoes : s.Goes sc T s') :
    Tracks sc.toSurroundings k s'.past s'.console ∧ s'.Backs ∧ Each (Event.Deals sc.toSurroundings k) s'.past := by
  obtain ⟨htracks, hbacks, heach⟩ := h
  cases hgoes with
  | stays | refused | filed => exact ⟨htracks, hbacks, heach⟩
  | moves hwhen hmoves =>
    refine ⟨htracks.moves hmoves, hbacks.moves hmoves, ?_⟩
    cases hmoves with
    | @copy r ticket jobs hlive hstage hjobs =>
      refine heach.snoc ⟨?_, hbacks (ticket, .capture) (hjobs ▸ List.mem_cons_self)⟩
      rw [← htracks.machine_eq, Console.machine, Console.processor, hlive]
    | @install r ticket m jobs hlive hstage hjobs =>
      exact heach.snoc (hbacks (ticket, .restore m) (hjobs ▸ List.mem_cons_self))
    | pass | step | die | fail | leave | tick | hush => exact heach.append_of_forall (by simp [Event.Deals])
  | @acts role a x c hrole hasked hfits hact =>
    refine ⟨htracks.acts hfits hact, hbacks.acts hasked hact, ?_⟩
    refine heach.append_of_length_le (a.length_events_le x) fun e he => ?_
    cases a with
    | captureParked =>
      cases List.mem_singleton.mp he
      cases hact
      exact ⟨(Console.machine_of_none hfits.2).symm.trans htracks.machine_eq, hasked⟩
    | replaceParked m =>
      cases List.mem_singleton.mp he
      exact hasked
    | spawnRunner | spawnMetronome =>
      cases x <;> simp [Action.events] at he <;> subst he <;> trivial
    | note n =>
      cases n with
      | previousRunEnded f =>
        cases List.mem_singleton.mp he
        trivial
      | _ => cases he
    | park | resetBoard =>
      cases List.mem_singleton.mp he
      trivial
    | _ => cases he
  | called hq hrests => exact ⟨htracks.same (fun _ => rfl) rfl rfl rfl, backs_of_rests hrests, heach.snoc trivial⟩
  | @answered q answer before hasks hmeets =>
    refine ⟨htracks.same (fun _ => rfl) rfl rfl rfl,
      backs_of_rests (s := s.add (.answered q answer)) (Office.rests_of_meets hmeets), heach.snoc ?_⟩
    obtain ⟨during, hpast, hinner⟩ := hasks
    exact ⟨⟨before, during, hpast, hinner, hmeets.settles hpast⟩, hmeets.perished⟩

end Scene

namespace Office

/-- **Nothing is lost or done twice.**  In every history:
* a restore that succeeded has replaced the machine once, be it by the runner or at the desk, and one that failed has
  not; the machine is replaced at no other time but for a load;
* a request fails for want of a runner only if the runner has died;
* a capture that succeeded brings a copy that was made since it was asked for, of the machine that all events before the
  copy have left. -/
theorem protocol (s : Settings) {sc : Scenario} (hsc : sc.Only Happening.Apart) (turns : List Turn) :
    Each (Event.Deals sc.toSurroundings (Console.new s |>.core .powerOn)) ((Office.new s).run sc turns).past := by
  have hsound : (Office.new s).Sound sc fun _ => True := sound_new s
  have hnew : Tracks sc.toSurroundings (Console.new s |>.core .powerOn) [] (Console.new s) :=
    ⟨rfl, fun _ => rfl, fun _ => rfl⟩
  exact (hsound.run hsc (fun _ _ => trivial) (fun _ _ h hgoes => Scene.deals_goes h hgoes) ⟨hnew, nofun, .nil⟩).2.2.2

/-- A program that jumps to itself is held; its machine is replaced by the one after power-on, copied, and the run is
ended. -/
def replacedInBetween : List Turn :=
  session (.reset [0x12, 0x00]) ++ session .pause ++ session (.restore .powerOn) ++ session .capture ++ session .stop

theorem protocol_replacedInBetween :
    alone.Only Happening.Apart ∧
      Each (Event.Deals alone.toSurroundings (Console.new {} |>.core .powerOn))
        ((Office.new {}).run alone replacedInBetween).past := by
  have halone := only_alone Happening.Apart
  exact ⟨halone, protocol {} halone replacedInBetween⟩

end Office

end ChipEight
