import ChipEight.Proofs.Office.Actions
import ChipEight.Proofs.Office.Leads
import ChipEight.Proofs.Office.Past

/-!
# Where the desk stands

What the desk can rely on in the middle of a method of `Machine`, although the clocks move.

* `Books` : where the faults are that nobody was told of yet.
* `Scene.Stands` : what the desk has to join, the books, and that no job and no reply is left over.
* `Scene.Rests` : the same between two requests.
* `Stands.drifts` : moves of the clocks change nothing about it.
* `Scene.Fits` : the actions that a request may do in a scene.
* `Leads.inert` : most actions change nothing about it either.
-/

namespace ChipEight

/-- Where the faults are that nobody was told of yet. -/
inductive Books where
  /-- The fault of the last run is on the board, that of the run before with the desk. -/
  | onBoard
  /-- There is no run, and the last fault is with the desk. -/
  | atDesk
  /-- The run was given up. -/
  | void
  /-- There is no run, and the desk has taken the last fault to tell somebody. -/
  | inHand (f : Option Fault)

def Books.atRest (attached : Bool) : Books := if attached then .onBoard else .atDesk

namespace Scene

/-- A run keeps its fault on the board. -/
structure OnBoard (s : Scene) : Prop where
  valid : (account s.past).void = false
  pending : (account s.past).waiting.getLast? = s.console.desk.pending
  latest : (account s.past).latest = s.console.board.fault
  working : ∀ r, s.console.runner = .live r → r.stage ≠ .leaving → s.console.board.fault = none
  died : s.console.runner = .died → s.console.board.fault = none

/-- The books are like this. -/
def Keeps (s : Scene) : Books → Prop
  | .onBoard => s.OnBoard
  | .atDesk => s.console.runner = .none ∧ (unreported s.past).getLast? = s.console.desk.pending
  | .void =>
    (account s.past).void = true ∧ (account s.past).latest = none ∧
      (account s.past).waiting.getLast? = s.console.desk.pending
  | .inHand f => s.console.runner = .none ∧ (unreported s.past).getLast? = f ∧ s.console.desk.pending = none

/-- The desk knows what it has to join, and the books are in order. -/
structure Holds (attached runner metronome : Bool) (b : Books) (s : Scene) : Prop where
  attached : s.console.desk.attached = attached
  runner : s.console.runner.here = runner
  metronome : s.console.metronome.here = metronome
  died : s.console.runner = .died → Perished s.past
  books : s.Keeps b

/-- The same, and no job and no reply is left over. -/
structure Stands (ds : List Event) (attached runner metronome : Bool) (b : Books) (s : Scene) : Prop
    extends Holds attached runner metronome b s where
  jobs : s.console.mail.jobs = []
  replies : s.console.mail.replies = []
  deals : deals s.past = ds

/-- What a desk has to join when it is at no request: a whole run or nothing. -/
def Rests (ds : List Event) (s : Scene) : Prop := ∃ attached, s.Stands ds attached attached attached (.atRest attached)

end Scene

def Mailbox.Quiet (m : Mailbox) : Prop := m.jobs = [] ∧ m.replies = []

/-! ### Moves of the clocks -/

namespace Console.Moves

variable {sc : Scenario} {c c' : Console} {es : List Event}

theorem desk_eq (h : c.Moves sc c' es) : c'.desk = c.desk := by
  cases h <;> rfl

theorem refusal_eq (h : c.Moves sc c' es) : c'.refusal = c.refusal := by
  cases h <;> rfl

theorem file_eq (h : c.Moves sc c' es) : c'.file = c.file := by
  cases h <;> rfl

theorem metronome_here (h : c.Moves sc c' es) : c'.metronome.here = c.metronome.here := by
  cases h with
  | tick hhere metronome hstays | hush hhere metronome hstays => rw [hhere, hstays]
  | _ => rfl

theorem runner_here (h : c.Moves sc c' es) : c'.runner.here = c.runner.here := by
  cases h with
  | tick hhere | hush hhere => rfl
  | copy hlive => rfl
  | pass hlive | install hlive | step hlive | die hlive | fail hlive | leave hlive =>
    rw [hlive]
    rfl

theorem not_begun (h : c.Moves sc c' es) : .begun ∉ es := by
  cases h <;> simp

theorem inner (h : c.Moves sc c' es) : ∀ e ∈ es, e.Inner := by
  cases h <;> simp [Event.Inner]

theorem deals_eq (h : c.Moves sc c' es) (hjobs : c.mail.jobs = []) : deals es = [] := by
  cases h with
  | copy hlive hstage hhead | install hlive hstage hhead =>
    rw [hjobs] at hhead
    cases hhead
  | _ => rfl

theorem mail_eq (h : c.Moves sc c' es) (hjobs : c.mail.jobs = []) :
    c'.mail.jobs = [] ∧ c'.mail.replies = c.mail.replies := by
  cases h with
  | copy hlive hstage hhead | install hlive hstage hhead =>
    rw [hjobs] at hhead
    cases hhead
  | die | leave => exact ⟨rfl, rfl⟩
  | _ => exact ⟨hjobs, rfl⟩

/-- No reply is lost. -/
theorem replies_eq (h : c.Moves sc c' es) : ∃ replies, c'.mail.replies = c.mail.replies ++ replies := by
  cases h with
  | copy | install => exact ⟨_, rfl⟩
  | _ => exact ⟨[], (List.append_nil _).symm⟩

/-- Only the death of a runner leaves one that has died. -/
theorem died_of_died (h : c.Moves sc c' es) (hdied : c'.runner = .died) :
    c.runner = .died ∨ (∃ r, c.runner = .live r ∧ r.stage ≠ .leaving) ∧ es = [.stepped, .died] := by
  cases h with
  | die hlive hstage => exact .inr ⟨⟨_, hlive, hstage⟩, rfl⟩
  | tick | hush => exact .inl hdied
  | copy hlive =>
    rw [show _ = _ from hlive] at hdied
    cases hdied
  | _ => cases hdied

theorem live_of_live (h : c.Moves sc c' es) {r' : Runner} (hlive' : c'.runner = .live r') :
    ∃ r, c.runner = .live r := by
  cases h with
  | pass hlive | copy hlive | install hlive | step hlive | fail hlive => exact ⟨_, hlive⟩
  | die | leave => cases hlive'
  | tick | hush => exact ⟨r', hlive'⟩

/-- A runner at work was at work before. -/
theorem working_of_working (h : c.Moves sc c' es) {r' : Runner} (hlive' : c'.runner = .live r')
    (hstage' : r'.stage ≠ .leaving) : ∃ r, c.runner = .live r ∧ r.stage ≠ .leaving := by
  cases h with
  | pass hlive hstage | copy hlive hstage | install hlive hstage | step hlive hstage => exact ⟨_, hlive, hstage⟩
  | die | leave => cases hlive'
  | fail =>
    cases hlive'
    exact absurd rfl hstage'
  | tick | hush => exact ⟨r', hlive', hstage'⟩

/-- Either the fault of a run is recorded, or fault and account stay as they are. -/
theorem fault_or_same (h : c.Moves sc c' es) :
    (∃ r f, c.runner = .live r ∧ r.stage = .failing f ∧ c' = { c.runnerAt r .leaving with board := c.board.fail f } ∧
        es = [.faulted f]) ∨
      c'.board.fault = c.board.fault ∧ ∀ a : Account, es.foldl .enter a = a := by
  cases h with
  | fail hlive hstage => exact .inl ⟨_, _, hlive, hstage, rfl, rfl⟩
  | _ => exact .inr ⟨rfl, fun _ => rfl⟩

end Console.Moves

namespace Scene

variable {sc : Scenario} {s s' : Scene} {c : Console} {es : List Event} {ds : List Event} {a r m : Bool} {b : Books}

theorem OnBoard.moves (h : s.OnBoard) (hmoves : s.console.Moves sc c es) : OnBoard ⟨c, s.past ++ es⟩ := by
  have haccount : account (s.past ++ es) = es.foldl .enter (account s.past) := account_append _ _
  rcases hmoves.fault_or_same with ⟨r, f, hlive, hstage, rfl, rfl⟩ | ⟨hfault, hsame⟩
  · have henter : account (s.past ++ [.faulted f]) = { account s.past with latest := some f } := by
      rw [haccount]
      simp [Account.enter, h.valid]
    refine ⟨?_, ?_, ?_, fun r' hlive' hstage' => ?_, nofun⟩
    · rw [henter]
      exact h.valid
    · rw [henter]
      exact h.pending
    · rw [henter]
      rfl
    · cases hlive'
      exact absurd rfl hstage'
  · rw [hsame] at haccount
    refine ⟨?_, ?_, ?_, fun r' hlive' hstage' => ?_, fun hdied => ?_⟩
    · rw [haccount]
      exact h.valid
    · rw [haccount, hmoves.desk_eq]
      exact h.pending
    · rw [haccount]
      exact h.latest.trans hfault.symm
    · obtain ⟨r, hlive, hstage⟩ := hmoves.working_of_working hlive' hstage'
      exact hfault.trans (h.working r hlive hstage)
    · rcases hmoves.died_of_died hdied with hdied | ⟨⟨r, hlive, hstage⟩, -⟩
      · exact hfault.trans (h.died hdied)
      · exact hfault.trans (h.working r hlive hstage)

theorem same_of_no_runner (hnone : s.console.runner = .none) (hmoves : s.console.Moves sc c es) :
    c.runner = .none ∧ account (s.past ++ es) = account s.past := by
  refine ⟨?_, ?_⟩
  · have hhere := hmoves.runner_here
    rw [Thread.here_eq_false.mpr hnone] at hhere
    exact Thread.here_eq_false.mp hhere
  · rw [account_append]
    rcases hmoves.fault_or_same with ⟨r, f, hlive, -⟩ | ⟨-, hsame⟩
    · rw [hnone] at hlive
      cases hlive
    · exact hsame _

theorem Keeps.moves (h : s.Keeps b) (hmoves : s.console.Moves sc c es) : Keeps ⟨c, s.past ++ es⟩ b := by
  cases b with
  | onBoard => exact OnBoard.moves h hmoves
  | atDesk =>
    obtain ⟨hnone, haccount⟩ := same_of_no_runner h.1 hmoves
    refine ⟨hnone, ?_⟩
    rw [unreported, haccount, hmoves.desk_eq]
    exact h.2
  | inHand f =>
    obtain ⟨hnone, haccount⟩ := same_of_no_runner h.1 hmoves
    refine ⟨hnone, ?_, ?_⟩
    · rw [unreported, haccount]
      exact h.2.1
    · rw [hmoves.desk_eq]
      exact h.2.2
  | void =>
    obtain ⟨hvoid, hlatest, hwaiting⟩ := h
    have haccount : account (s.past ++ es) = account s.past := by
      rw [account_append]
      rcases hmoves.fault_or_same with ⟨r, f, -, -, -, rfl⟩ | ⟨-, hsame⟩
      · simp [Account.enter, hvoid]
      · exact hsame _
    refine ⟨?_, ?_, ?_⟩
    · rw [haccount]
      exact hvoid
    · rw [haccount]
      exact hlatest
    · rw [haccount, hmoves.desk_eq]
      exact hwaiting

theorem Holds.moves (h : s.Holds a r m b) (hmoves : s.console.Moves sc c es) : Holds a r m b ⟨c, s.past ++ es⟩ where
  attached := by rw [hmoves.desk_eq, h.attached]
  runner := hmoves.runner_here.trans h.runner
  metronome := hmoves.metronome_here.trans h.metronome
  died hdied := by
    rcases hmoves.died_of_died hdied with hdied | ⟨-, rfl⟩
    · exact (h.died hdied).append hmoves.not_begun
    · exact ⟨s.past ++ [.stepped], [], by simp, nofun⟩
  books := h.books.moves hmoves

theorem Stands.moves (h : s.Stands ds a r m b) (hmoves : s.console.Moves sc c es) :
    Stands ds a r m b ⟨c, s.past ++ es⟩ where
  toHolds := h.toHolds.moves hmoves
  jobs := (hmoves.mail_eq h.jobs).1
  replies := (hmoves.mail_eq h.jobs).2.trans h.replies
  deals := (deals_append_of_none (hmoves.deals_eq h.jobs)).trans h.deals

/-- **Moves of the clocks change nothing** about where the desk stands. -/
theorem Stands.drifts (h : s.Stands ds a r m b) (hdrift : s.Drifts sc s') : s'.Stands ds a r m b :=
  hdrift.induct Stands.moves h

theorem Rests.self (h : s.Rests ds) : s.Rests (ChipEight.deals s.past) := by
  obtain ⟨a, h⟩ := h
  exact ⟨a, { h with deals := rfl }⟩

theorem Rests.moves (h : s.Rests ds) (hmoves : s.console.Moves sc c es) : Rests ds ⟨c, s.past ++ es⟩ := by
  obtain ⟨attached, hstands⟩ := h
  exact ⟨attached, hstands.moves hmoves⟩

theorem Drifts.eq_of_gone (hdrift : s.Drifts sc s') (hrunner : s.console.runner = .none)
    (hmetronome : s.console.metronome = .none) : s' = s := by
  refine hdrift.induct (P := (· = s)) (fun {s₁ c es} heq hmoves => ?_) rfl
  subst heq
  cases hmoves with
  | tick hhere | hush hhere =>
    rw [hmetronome] at hhere
    cases hhere
  | pass hlive | copy hlive | install hlive | step hlive | die hlive | fail hlive | leave hlive =>
    rw [hrunner] at hlive
    cases hlive

end Scene

/-! ### Actions that fit -/

namespace Request

def Copies (q : Request) : Prop := q = .capture ∨ q = .save

def Replaces (q : Request) (m : Machine) : Prop := q = .restore m ∨ q = .load

/-- What a request may do at all. -/
def Allows (q : Request) : Action → Prop
  | .park _ | .resetBoard => ∃ program, q = .reset program
  | .post .capture | .captureParked => q.Copies
  | .post (.restore m) | .replaceParked m => q.Replaces m
  | .collect _ => q.Copies ∨ ∃ m, q.Replaces m
  | _ => True

end Request

/-- Nothing is on its way but the job with this ticket, or its reply, or there is nobody to do it. -/
def Console.Expects (c : Console) (ticket : Nat) : Prop :=
  (∃ j, c.mail.jobs = [(ticket, j)]) ∨ (∃ reply, c.mail.replies = [(ticket, reply)]) ∨ ∀ r, c.runner ≠ .live r

/-- What a request may do in this scene: it touches the parked processor only when there is no runner, and clears the
board only when somebody was told of every fault; it tells of the last one; it waits for a reply that it can expect, and
for a clock only when the run state lets it end. -/
def Scene.Fits (sc : Scenario) (q : Request) (s : Scene) (a : Action) : Prop :=
  q.Allows a ∧
    match a with
    | .park _ | .spawnRunner | .captureParked | .replaceParked _ => s.console.runner = .none
    | .resetBoard => s.console.runner = .none ∧ unreported s.past = []
    | .note (.previousRunEnded f) => (unreported s.past).getLast? = some f
    | .collect ticket => s.console.Expects ticket
    | .joinRunner | .joinMetronome => sc.Only Happening.KeepsMode → s.console.board.mode = .stopped
    | _ => True

/-! ### Actions that change nothing -/

/-- Threads, mail and faults are as they were. -/
structure Console.Unmoved (c c' : Console) : Prop where
  attached : c'.desk.attached = c.desk.attached
  pending : c'.desk.pending = c.desk.pending
  runner : c'.runner = c.runner
  metronome : c'.metronome = c.metronome
  mail : c'.mail = c.mail
  fault : c'.board.fault = c.board.fault

/-- An action that changes nothing about where the desk stands. -/
def Action.Inert : Action → Prop
  | .note (.previousRunEnded _) => False
  | .readMode | .setMode _ | .readFault | .readRate | .setRate _ | .readSound | .isAttached | .startTone | .stopTone
  | .createFile | .appendFile _ | .readFile | .statePath | .note _ => True
  | _ => False

theorem Console.act_of_inert {a : Action} (ha : a.Inert) (c : Console) :
    ∃ x c', c.act a = some (x, c') ∧ a.events x = [] ∧ c.Unmoved c' := by
  cases a with
  | createFile =>
    simp only [act]
    split
    · exact ⟨_, _, rfl, rfl, ⟨rfl, rfl, rfl, rfl, rfl, rfl⟩⟩
    · exact ⟨_, _, rfl, rfl, ⟨rfl, rfl, rfl, rfl, rfl, rfl⟩⟩
  | appendFile bytes =>
    simp only [act]
    split
    · exact ⟨_, _, rfl, rfl, ⟨rfl, rfl, rfl, rfl, rfl, rfl⟩⟩
    · exact ⟨_, _, rfl, rfl, ⟨rfl, rfl, rfl, rfl, rfl, rfl⟩⟩
  | note n =>
    refine ⟨_, _, rfl, ?_, ⟨rfl, rfl, rfl, rfl, rfl, rfl⟩⟩
    cases n with
    | previousRunEnded f => exact ha.elim
    | _ => rfl
  | readMode | setMode | readFault | readRate | setRate | readSound | isAttached | startTone | stopTone | readFile
  | statePath => exact ⟨_, _, rfl, rfl, ⟨rfl, rfl, rfl, rfl, rfl, rfl⟩⟩
  | _ => exact ha.elim

theorem Scene.fits_of_inert {sc : Scenario} {q : Request} {a : Action} (ha : a.Inert) (s : Scene) : s.Fits sc q a := by
  cases a with
  | note n =>
    cases n with
    | previousRunEnded f => exact ha.elim
    | _ => exact ⟨trivial, trivial⟩
  | readMode | setMode | readFault | readRate | setRate | readSound | isAttached | startTone | stopTone | createFile
  | appendFile | readFile | statePath => exact ⟨trivial, trivial⟩
  | _ => exact ha.elim

namespace Scene

/-- What neither the clocks nor an inert action can change. -/
structure Firm (sc : Scenario) (K : Scene → Prop) : Prop where
  moves : ∀ {s c es}, K s → s.console.Moves sc c es → K ⟨c, s.past ++ es⟩
  unmoved : ∀ {s c}, K s → s.console.Unmoved c → K ⟨c, s.past⟩

variable {sc : Scenario} {s : Scene} {c : Console} {ds : List Event} {a r m : Bool} {b : Books}

/-- What the books are about. -/
theorem Keeps.of_eq {s' : Scene} (h : s.Keeps b) (haccount : account s'.past = account s.past)
    (hpending : s'.console.desk.pending = s.console.desk.pending) (hrunner : s'.console.runner = s.console.runner)
    (hfault : s'.console.board.fault = s.console.board.fault) : s'.Keeps b := by
  cases b with
  | onBoard =>
    obtain ⟨hvalid, hwaiting, hlatest, hworking, hdied⟩ := h
    refine ⟨?_, ?_, ?_, ?_, ?_⟩
    · rwa [haccount]
    · rwa [haccount, hpending]
    · rwa [haccount, hfault]
    · rwa [hrunner, hfault]
    · rwa [hrunner, hfault]
  | atDesk =>
    refine ⟨hrunner.trans h.1, ?_⟩
    rw [unreported, haccount, hpending]
    exact h.2
  | void =>
    obtain ⟨hvoid, hlatest, hwaiting⟩ := h
    refine ⟨?_, ?_, ?_⟩
    · rwa [haccount]
    · rwa [haccount]
    · rwa [haccount, hpending]
  | inHand f =>
    refine ⟨hrunner.trans h.1, ?_, hpending.trans h.2.2⟩
    rw [unreported, haccount]
    exact h.2.1

theorem Stands.unmoved (h : s.Stands ds a r m b) (hc : s.console.Unmoved c) : Stands ds a r m b ⟨c, s.past⟩ where
  attached := hc.attached.trans h.attached
  runner := (congrArg Thread.here hc.runner).trans h.runner
  metronome := (congrArg Thread.here hc.metronome).trans h.metronome
  jobs := (congrArg Mailbox.jobs hc.mail).trans h.jobs
  replies := (congrArg Mailbox.replies hc.mail).trans h.replies
  deals := h.deals
  died hdied := h.died (hc.runner.symm.trans hdied)
  books := h.books.of_eq rfl hc.pending hc.runner hc.fault

theorem Stands.add (h : s.Stands ds a r m b) {e : Event} (he : e.Plain) : (s.add e).Stands ds a r m b where
  attached := h.attached
  runner := h.runner
  metronome := h.metronome
  jobs := h.jobs
  replies := h.replies
  deals := (deals_append_of_none (by rw [ChipEight.deals, List.filter_singleton, he.isDeal_eq]; rfl)).trans h.deals
  died hdied := (h.died hdied).append (by simpa using he.ne_begun.symm)
  books := h.books.of_eq ((account_append _ _).trans (he.account_enter _)) rfl rfl rfl

theorem firm_stands : Firm sc (Stands ds a r m b) where
  moves := Stands.moves
  unmoved := Stands.unmoved

theorem Rests.unmoved (h : s.Rests ds) (hc : s.console.Unmoved c) : Rests ds ⟨c, s.past⟩ := by
  obtain ⟨a, h⟩ := h
  exact ⟨a, h.unmoved hc⟩

theorem firm_rests : Firm sc (Rests ds) where
  moves := Rests.moves
  unmoved := Rests.unmoved

theorem firm_perished : Firm sc (fun s => Perished s.past) where
  moves h hmoves := h.append hmoves.not_begun
  unmoved h _ := h

theorem Firm.and {K L : Scene → Prop} (hK : Firm sc K) (hL : Firm sc L) : Firm sc (fun s => K s ∧ L s) where
  moves h hmoves := ⟨hK.moves h.1 hmoves, hL.moves h.2 hmoves⟩
  unmoved h hc := ⟨hK.unmoved h.1 hc, hL.unmoved h.2 hc⟩

theorem Firm.imp {K : Scene → Prop} (hK : Firm sc K) (p : Prop) : Firm sc (fun s => p → K s) where
  moves h hmoves hp := hK.moves (h hp) hmoves
  unmoved h hc hp := hK.unmoved (h hp) hc

theorem Firm.drifts {K : Scene → Prop} (hK : Firm sc K) {s s' : Scene} (h : K s) (hdrift : s.Drifts sc s') : K s' :=
  hdrift.induct hK.moves h

end Scene

theorem Procedure.Leads.inert {α : Type} {sc : Scenario} {q : Request} {s : Scene} {K : Scene → Prop} {a : Action}
    {next : a.Answer → Procedure α} {G : Procedure α → Scene → Prop} (hfirm : Scene.Firm sc K) (ha : a.Inert) (h : K s)
    (hnext : ∀ x s', K s' → (next x).Leads sc (Scene.Fits sc q) G s') :
    (Procedure.act a next).Leads sc (Scene.Fits sc q) G s := by
  refine .quiet (K := fun _ => K) (fun s' hdrift => ?_) hnext
  obtain ⟨x, c, hact, hevents, hunmoved⟩ := s'.console.act_of_inert ha
  exact ⟨s'.fits_of_inert ha, x, c, hact, hevents, hfirm.unmoved (hfirm.drifts h hdrift) hunmoved⟩

theorem Procedure.Leads.asksAttached {α : Type} {sc : Scenario} {q : Request} {s : Scene} {ds : List Event}
    {a r m : Bool} {b : Books} {next : Bool → Procedure α} {G : Procedure α → Scene → Prop} (h : s.Stands ds a r m b)
    (hnext : ∀ s', s'.Stands ds a r m b → (next a).Leads sc (Scene.Fits sc q) G s') :
    (Procedure.act .isAttached next).Leads sc (Scene.Fits sc q) G s := by
  refine .quiet (K := fun x s => x = a ∧ s.Stands ds a r m b) (fun s' hdrift => ?_) ?_
  · have h := h.drifts hdrift
    exact ⟨⟨trivial, trivial⟩, _, _, rfl, rfl, h.attached, h⟩
  rintro x s₁ ⟨rfl, h₁⟩
  exact hnext s₁ h₁

/-- Where there is no clock, nothing comes between. -/
theorem Procedure.Leads.alone {α : Type} {sc : Scenario} {D : Scene → Action → Prop} {s : Scene} {a : Action}
    {next : a.Answer → Procedure α} {G : Procedure α → Scene → Prop} {K : a.Answer → Scene → Prop} {ds : List Event}
    {attached : Bool} {b : Books} (h : s.Stands ds attached false false b) (hfits : D s a)
    (hact : ∀ x c, s.console.act a = some (x, c) → K x (s.did a x c))
    (hnext : ∀ x s', K x s' → (next x).Leads sc D G s') : (Procedure.act a next).Leads sc D G s := by
  refine .step (fun s' hdrift => ?_) hnext
  obtain rfl := hdrift.eq_of_gone (Thread.here_eq_false.mp h.runner) (Thread.here_eq_false.mp h.metronome)
  exact ⟨hfits, hact⟩

end ChipEight
