import ChipEight.Proofs.Office.Stands

/-!
# What the orders secure

Every order of the desk, whatever the clocks do in the meantime, from the wait for the end of a run (`halt`) to `start`,
`stop` and `reset`.

* `Stands.joinsRunner`, `Stands.setsPending` and the like : what a single action does to where the desk stands.
* `Order.endRun_secures` : the run is over, its fault is with the desk, and an error tells of a death.
* `Order.launch_secures` : the clocks are at work, or a thread was refused.
* `Order.start_secures`, `Order.stop_secures` : the orders made of these.
* `Order.reset_leads` : a reset leads to where everything is ready for a runner with the program's processor.
-/

namespace ChipEight

namespace Scene

variable {s : Scene} {c : Console} {ds : List Event} {a r m : Bool} {b : Books}
  {f : Fault}

/-! ### What the actions do -/

theorem Stands.attaching (h : s.Stands ds a r m b) (attached : Bool) :
    Stands ds attached r m b ⟨{ s.console with desk := { s.console.desk with attached } }, s.past⟩ :=
  { h with attached := rfl, books := h.books.of_eq rfl rfl rfl rfl }

theorem Stands.eq_none (h : s.Stands ds a false m b) : s.console.runner = .none := Thread.here_eq_false.mp h.runner

/-- The desk waits for a runner; its fault, if it has one, stays on the board. -/
theorem Stands.joinsRunner (h : s.Stands ds a r m .onBoard) {whole : Bool}
    (hact : s.console.act .joinRunner = some (whole, c)) :
    Stands ds a false m (if whole then .onBoard else .atDesk) ⟨c, s.past⟩ ∧ (whole = false → Perished s.past) := by
  have hbooks : s.OnBoard := h.books
  rcases Console.of_joinRunner hact with ⟨hrunner, rfl, rfl⟩ | ⟨p, -, rfl, rfl⟩ | ⟨hrunner, rfl, rfl⟩
  · exact ⟨{ h with runner := Thread.here_eq_false.mpr hrunner }, by rintro ⟨⟩⟩
  · have hleft : OnBoard ⟨{ s.console with runner := .none, desk := { s.console.desk with parked := p } }, s.past⟩ :=
      ⟨hbooks.valid, hbooks.pending, hbooks.latest, by rintro _ ⟨⟩, by rintro ⟨⟩⟩
    exact ⟨{ h with runner := rfl, died := by rintro ⟨⟩, books := hleft }, by rintro ⟨⟩⟩
  · -- a runner that died has left no fault
    have hnone : (account s.past).latest = none := hbooks.latest.trans (hbooks.died hrunner)
    refine ⟨{ h with runner := rfl, died := by rintro ⟨⟩, books := ⟨rfl, ?_⟩ }, fun _ => h.died hrunner⟩
    rw [unreported, Account.unreported, hnone, Option.toList_none, List.append_nil]
    exact hbooks.pending

theorem Stands.joinsRunner_void (h : s.Stands ds a r m .void) {whole : Bool}
    (hact : s.console.act .joinRunner = some (whole, c)) : Stands ds a false m .atDesk ⟨c, s.past⟩ := by
  obtain ⟨-, hlatest, hwaiting⟩ := h.books
  have hlast : (unreported s.past).getLast? = s.console.desk.pending := by
    rw [unreported, Account.unreported, hlatest, Option.toList_none, List.append_nil]
    exact hwaiting
  rcases Console.of_joinRunner hact with ⟨hrunner, -, rfl⟩ | ⟨p, -, -, rfl⟩ | ⟨-, -, rfl⟩
  · exact { h with runner := Thread.here_eq_false.mpr hrunner, books := ⟨hrunner, hlast⟩ }
  all_goals exact { h with runner := rfl, died := by rintro ⟨⟩, books := ⟨rfl, hlast⟩ }

theorem Stands.joinsMetronome (h : s.Stands ds a r m b) {whole : Bool}
    (hact : s.console.act .joinMetronome = some (whole, c)) : Stands ds a r false b ⟨c, s.past⟩ := by
  obtain ⟨rfl, -⟩ := Console.of_joinMetronome hact
  exact { h with metronome := rfl, books := h.books.of_eq rfl rfl rfl rfl }

theorem Stands.setsPending (h : s.Stands ds a false m .onBoard) {f : Fault} (hfault : s.console.board.fault = some f) :
    Stands ds a false m .atDesk ⟨{ s.console with desk := { s.console.desk with pending := some f } }, s.past⟩ := by
  have hbooks : s.OnBoard := h.books
  refine { h with books := ⟨h.eq_none, ?_⟩ }
  have hlatest : (account s.past).latest = some f := hbooks.latest.trans hfault
  rw [unreported, Account.unreported, hlatest, Option.toList_some, List.getLast?_append]
  rfl

theorem Stands.of_no_fault (h : s.Stands ds a false m .onBoard) (hfault : s.console.board.fault = none) :
    Stands ds a false m .atDesk s := by
  have hbooks : s.OnBoard := h.books
  refine { h with books := ⟨h.eq_none, ?_⟩ }
  have hlatest : (account s.past).latest = none := hbooks.latest.trans hfault
  rw [unreported, Account.unreported, hlatest, Option.toList_none, List.append_nil]
  exact hbooks.pending

theorem Stands.takesPending (h : s.Stands ds a r m .atDesk) :
    Stands ds a r m (.inHand s.console.desk.pending)
      ⟨{ s.console with desk := { s.console.desk with pending := none } }, s.past⟩ :=
  { h with books := ⟨h.books.1, h.books.2, rfl⟩ }

theorem Stands.deal (h : s.Stands ds a false m .atDesk) {e : Event} (he : e.isDeal = true) :
    (s.add e).Stands (ds ++ [e]) a false m .atDesk where
  attached := h.attached
  runner := h.runner
  metronome := h.metronome
  jobs := h.jobs
  replies := h.replies
  deals := by rw [Scene.add, deals_append, h.deals, ChipEight.deals, List.filter_singleton, he]; rfl
  died hdied := (h.died hdied).append fun hmem => by
    cases List.mem_singleton.mp hmem
    cases he
  books := by
    refine h.books.of_eq ((account_append _ _).trans ?_) rfl rfl rfl
    cases e <;> first | rfl | cases he

theorem Stands.tells (h : s.Stands ds a r m (.inHand (some f))) {e : Event} (he : e.tells = some f) :
    (s.add e).Stands ds a r m (.inHand none) where
  attached := h.attached
  runner := h.runner
  metronome := h.metronome
  jobs := h.jobs
  replies := h.replies
  deals := by
    refine (deals_append_of_none ?_).trans h.deals
    cases e <;> first | rfl | cases he
  died hdied := (h.died hdied).append fun hmem => by
    cases List.mem_singleton.mp hmem
    cases he
  books := by
    have haccount : account (s.past ++ [e]) = { account s.past with waiting := [], latest := none } :=
      (account_append _ _).trans (Account.enter_of_tells he _)
    refine ⟨h.books.1, ?_, h.books.2.2⟩
    show (unreported (s.past ++ [e])).getLast? = none
    rw [unreported, haccount]
    rfl

theorem Stands.of_inHand (h : s.Stands ds a r m (.inHand none)) : s.Stands ds a r m .atDesk :=
  { h with books := ⟨h.books.1, h.books.2.1.trans h.books.2.2.symm⟩ }

/-- The parked processor becomes a runner, and the fault that is with the desk is one of an earlier run; or it is
lost. -/
theorem Stands.spawnsRunner (h : s.Stands ds a false m .atDesk) (hfault : s.console.board.fault = none) {made : Bool}
    (hact : s.console.act .spawnRunner = some (made, c)) :
    Stands ds a made m (if made then .onBoard else .atDesk) (s.did .spawnRunner made c) ∧
      (s.console.refusal = 0 → made = true ∧ c.refusal = 0) := by
  have hlast := h.books.2
  rcases Console.of_spawnRunner hact with ⟨rfl, hrefused, rfl⟩ | ⟨rfl, -, rfl⟩
  · have haccount : account (s.past ++ [.lost]) = account s.past := account_append _ _
    refine ⟨{ h with deals := (deals_append_of_none rfl).trans h.deals, died := ?_, books := ?_ }, fun hzero => ?_⟩
    · exact fun hdied => (h.died hdied).append (by simp [Action.events])
    · refine ⟨h.eq_none, ?_⟩
      show (unreported (s.past ++ [.lost])).getLast? = _
      rw [unreported, haccount]
      exact hlast
    · rw [hzero] at hrefused
      cases hrefused
  · have haccount : account (s.past ++ [.begun]) = { waiting := unreported s.past } := account_append _ _
    refine ⟨{
      attached := h.attached
      runner := rfl
      metronome := h.metronome
      died := by rintro ⟨⟩
      books := ⟨?_, ?_, ?_, fun _ _ _ => hfault, by rintro ⟨⟩⟩
      jobs := rfl
      replies := rfl
      deals := (deals_append_of_none rfl).trans h.deals }, fun hzero => ⟨rfl, ?_⟩⟩
    · show (account (s.past ++ [.begun])).void = false
      rw [haccount]
    · show (account (s.past ++ [.begun])).waiting.getLast? = _
      rw [haccount]
      exact hlast
    · show (account (s.past ++ [.begun])).latest = _
      rw [haccount]
      exact hfault.symm
    · show s.console.refusal - 1 = 0
      rw [hzero]

/-- The metronome is made, or the run is given up. -/
theorem Stands.spawnsMetronome (h : s.Stands ds a true false .onBoard) {made : Bool}
    (hact : s.console.act .spawnMetronome = some (made, c)) :
    Stands ds a true made (if made then .onBoard else .void) (s.did .spawnMetronome made c) ∧
      (s.console.refusal = 0 → made = true) := by
  have hbooks : s.OnBoard := h.books
  rcases Console.of_spawnMetronome hact with ⟨rfl, hrefused, rfl⟩ | ⟨rfl, -, rfl⟩
  · have haccount : account (s.past ++ [.givenUp]) = { account s.past with latest := none, void := true } :=
      account_append _ _
    refine ⟨{ h with
      died := fun hdied => (h.died hdied).append (by simp [Action.events])
      deals := (deals_append_of_none rfl).trans h.deals
      books := ⟨?_, ?_, ?_⟩ }, fun hzero => ?_⟩
    · show (account (s.past ++ [.givenUp])).void = true
      rw [haccount]
    · show (account (s.past ++ [.givenUp])).latest = none
      rw [haccount]
    · show (account (s.past ++ [.givenUp])).waiting.getLast? = _
      rw [haccount]
      exact hbooks.pending
    · rw [hzero] at hrefused
      cases hrefused
  · rw [did_of_quiet rfl]
    exact ⟨{ h with metronome := rfl, books := h.books.of_eq rfl rfl rfl rfl }, fun _ => rfl⟩

end Scene

namespace Order

open Procedure (single Secures Leads)
open Scene (Fits Stands Firm)

variable {sc : Scenario} {q : Request} {s : Scene} {ds : List Event} {a : Bool} {b : Books}

/-- Unless somebody else changes the run state, it stays `stopped`. -/
def Halted (sc : Scenario) (s : Scene) : Prop := sc.Only Happening.KeepsMode → s.console.board.mode = .stopped

theorem Halted.moves {c : Console} {es : List Event} (h : Halted sc s) (hmoves : s.console.Moves sc c es) :
    Halted sc ⟨c, s.past ++ es⟩ := by
  intro hsc
  cases hmoves with
  | step hlive hstage stage mode rate journal hmode | die hlive hstage mode rate journal hmode =>
    exact (hmode hsc).trans (h hsc)
  | fail => rfl
  | _ => exact h hsc

theorem Halted.drifts {s' : Scene} (h : Halted sc s) (hdrift : s.Drifts sc s') : Halted sc s' :=
  hdrift.induct Halted.moves h

theorem halted_of_joinRunner {c : Console} {whole : Bool} (h : Halted sc s)
    (hact : s.console.act .joinRunner = some (whole, c)) : Halted sc ⟨c, s.past⟩ :=
  fun hsc => ((Console.footprint_of_act hact).mode.resolve_right nofun).trans (h hsc)

/-- The run is over: there are no clocks, and an error tells of the death of the runner. -/
def Over (ds : List Event) (answer : Except DeskError Unit) (s : Scene) : Prop :=
  s.Stands ds false false false .atDesk ∧ ∀ e, answer = .error e → e = .disconnected ∧ Perished s.past

/-- A run that was joined leaves its fault on the board, or has died. -/
def Joined (ds : List Event) (whole : Bool) (s : Scene) : Prop :=
  s.Stands ds false false false (if whole then .onBoard else .atDesk) ∧ (whole = false → Perished s.past)

theorem firm_joined {whole : Bool} : Firm sc (Joined ds whole) := Scene.firm_stands.and (Scene.firm_perished.imp _)

theorem closeRun_secures {whole : Bool} (h : Joined ds whole s) :
    (closeRun whole).run.Secures sc (Fits sc q) (Over ds) s := by
  cases whole with
  | false =>
    refine Leads.inert firm_joined trivial h fun _ s h => ?_
    exact Secures.done ⟨h.1, fun e he => ⟨(Except.error.inj he).symm, h.2 rfl⟩⟩
  | true =>
    have hnote (s : Scene) (h : s.Stands ds false false false .atDesk) :
        Procedure.Secures sc (Fits sc q) (.act (.note .stopped) fun _ => .done (.ok ())) (Over ds) s :=
      Leads.inert Scene.firm_stands trivial h fun _ s h => Secures.done ⟨h, nofun⟩
    refine Leads.quiet (K := fun f s => s.Stands ds false false false .onBoard ∧ s.console.board.fault = f)
      (fun s' hdrift => ?_) ?_
    · have h := h.1.drifts hdrift
      exact ⟨⟨trivial, trivial⟩, _, _, rfl, rfl, h, rfl⟩
    rintro (_ | f) s ⟨h, hfault⟩
    · exact hnote s (h.of_no_fault hfault)
    · refine Leads.quiet (K := fun _ s => s.Stands ds false false false .atDesk) (fun s' hdrift => ?_) fun _ => hnote
      obtain rfl := hdrift.eq_of_gone h.eq_none (Thread.here_eq_false.mp h.metronome)
      exact ⟨⟨trivial, trivial⟩, _, _, rfl, rfl, h.setsPending hfault⟩

theorem endRun_secures (h : s.Stands ds a a a (.atRest a)) : endRun.run.Secures sc (Fits sc q) (Over ds) s := by
  refine Leads.quiet (K := fun _ s => s.Stands ds a a a (.atRest a) ∧ Halted sc s) (fun s' hdrift => ?_) ?_
  · have h := h.drifts hdrift
    exact ⟨⟨trivial, trivial⟩, _, _, rfl, rfl, { h with books := h.books.of_eq rfl rfl rfl rfl }, fun _ => rfl⟩
  intro _ s ⟨h, hhalted⟩
  refine Leads.quiet (K := fun x s => x = a ∧ s.Stands ds a a a (.atRest a) ∧ Halted sc s) (fun s' hdrift => ?_) ?_
  · have h := h.drifts hdrift
    exact ⟨⟨trivial, trivial⟩, _, _, rfl, rfl, h.attached, h, hhalted.drifts hdrift⟩
  rintro x s ⟨rfl, h, hhalted⟩
  cases x with
  | false => exact Secures.done ⟨h, nofun⟩
  | true =>
  refine Leads.quiet (K := fun _ s => s.Stands ds false true true .onBoard ∧ Halted sc s) (fun s' hdrift => ?_) ?_
  · have hhalted := hhalted.drifts hdrift
    exact ⟨⟨trivial, trivial⟩, _, _, rfl, rfl, (h.drifts hdrift).attaching false, hhalted⟩
  intro _ s ⟨h, hhalted⟩
  -- how the run has ended is known when the runner is joined
  refine Leads.step
    (K := fun whole s => (s.Stands ds false false true (if whole then .onBoard else .atDesk) ∧
      (whole = false → Perished s.past)) ∧ Halted sc s)
    (fun s' hdrift => ⟨⟨trivial, hhalted.drifts hdrift⟩, fun whole c hact => ?_⟩) ?_
  · obtain ⟨hjoined, hperished⟩ := (h.drifts hdrift).joinsRunner hact
    rw [Scene.did_of_quiet rfl]
    exact ⟨⟨hjoined, hperished⟩, halted_of_joinRunner (hhalted.drifts hdrift) hact⟩
  intro whole s ⟨⟨h, hperished⟩, hhalted⟩
  refine Leads.step (K := fun _ s => Joined ds whole s)
    (fun s' hdrift => ⟨⟨trivial, hhalted.drifts hdrift⟩, fun sound c hact => ?_⟩) ?_
  · have hperished := (Scene.firm_perished.imp _).drifts hperished hdrift
    rw [Scene.did_of_quiet rfl]
    exact ⟨(h.drifts hdrift).joinsMetronome hact, hperished⟩
  intro sound s h
  cases sound with
  | true => exact closeRun_secures h
  | false => exact Leads.inert firm_joined trivial h fun _ s h => closeRun_secures h

/-! ### To begin a run -/

theorem settleTone_secures {K : Scene → Prop} (hfirm : Firm sc K) (h : K s) :
    settleTone.Secures sc (Fits sc q) (fun _ => K) s := by
  have htone (a : Action) (ha : a.Inert) (next : a.Answer → Unit) (s : Scene) (h : K s) :
      Procedure.Secures sc (Fits sc q) (.act a fun x => .done (next x)) (fun _ => K) s :=
    Leads.inert hfirm ha h fun _ s h => Secures.done h
  refine Leads.inert hfirm trivial h fun attached s h => ?_
  cases attached with
  | false => exact htone .stopTone trivial id s h
  | true =>
    refine Leads.inert hfirm trivial h fun sound s h => ?_
    change Leads sc (Fits sc q) _ (if 0 < sound then single .startTone else single .stopTone) s
    split
    · exact htone .startTone trivial id s h
    · exact htone .stopTone trivial id s h

def Launched (ds : List Event) (refusal : Nat) (answer : Except DeskError Unit) (s : Scene) : Prop :=
  s.Rests ds ∧ (∀ e, answer = .error e → e = .system .tryAgain) ∧ (refusal = 0 → answer = .ok ())

theorem launched_of_refused {refusal : Nat} (h : s.Stands ds false false false .atDesk) (hrefused : refusal ≠ 0) :
    Launched ds refusal (.error (.system .tryAgain)) s :=
  ⟨⟨false, h⟩, fun _ he => (Except.error.inj he).symm, fun hzero => absurd hzero hrefused⟩

theorem accompany_secures (h : s.Stands ds false true false .onBoard) :
    accompany.run.Secures sc (Fits sc q) (Launched ds s.console.refusal) s := by
  refine Leads.step
    (K := fun made s' => s'.Stands ds false true made (if made then .onBoard else .void) ∧
      (s.console.refusal = 0 → made = true)) (fun s' hdrift => ⟨⟨trivial, trivial⟩, fun made c hact => ?_⟩) ?_
  · obtain ⟨hstands, hmade⟩ := (h.drifts hdrift).spawnsMetronome hact
    have hrefusal : s'.console.refusal = s.console.refusal :=
      hdrift.induct (P := fun s' => s'.console.refusal = s.console.refusal)
        (fun heq hmoves => hmoves.refusal_eq.trans heq) rfl
    exact ⟨hstands, fun hzero => hmade (hrefusal.trans hzero)⟩
  rintro (_ | _) s₁ ⟨h₁, hmade⟩
  · have hrefused : s.console.refusal ≠ 0 := fun hzero => nomatch hmade hzero
    refine Leads.quiet (K := fun _ s => s.Stands ds false true false .void ∧ Halted sc s) (fun s' hdrift => ?_) ?_
    · have h := h₁.drifts hdrift
      exact ⟨⟨trivial, trivial⟩, _, _, rfl, rfl, { h with books := h.books.of_eq rfl rfl rfl rfl }, fun _ => rfl⟩
    intro _ s₂ ⟨h₂, hhalted⟩
    refine Leads.step (K := fun _ s => s.Stands ds false false false .atDesk)
      (fun s' hdrift => ⟨⟨trivial, hhalted.drifts hdrift⟩, fun whole c hact => ?_⟩)
      fun _ s₃ h₃ => Secures.done (launched_of_refused h₃ hrefused)
    rw [Scene.did_of_quiet rfl]
    exact (h₂.drifts hdrift).joinsRunner_void hact
  · refine Leads.quiet (K := fun _ s => s.Stands ds true true true .onBoard) (fun s' hdrift => ?_) fun _ s₂ h₂ => ?_
    · exact ⟨⟨trivial, trivial⟩, _, _, rfl, rfl, (h₁.drifts hdrift).attaching true⟩
    refine Secures.lift (settleTone_secures Scene.firm_stands h₂) fun _ s₃ h₃ => ?_
    refine Leads.inert Scene.firm_stands trivial h₃ fun _ s₄ h₄ => ?_
    refine Leads.inert Scene.firm_stands trivial h₄ fun _ s₅ h₅ => ?_
    exact Secures.done ⟨⟨true, h₅⟩, nofun, fun _ => rfl⟩

theorem launch_secures (h : s.Stands ds false false false .atDesk) (hfault : s.console.board.fault = none) :
    launch.run.Secures sc (Fits sc q) (Launched ds s.console.refusal) s := by
  refine Leads.alone
    (K := fun made s' => s'.Stands ds false made false (if made then .onBoard else .atDesk) ∧
      (s.console.refusal = 0 → made = true ∧ s'.console.refusal = 0)) h ⟨trivial, h.eq_none⟩
    (fun made c hact => h.spawnsRunner hfault hact) ?_
  rintro (_ | _) s₁ ⟨h₁, hmade⟩
  · have hrefused : s.console.refusal ≠ 0 := fun hzero => nomatch (hmade hzero).1
    exact Leads.inert Scene.firm_stands trivial h₁ fun _ s₂ h₂ => Secures.done (launched_of_refused h₂ hrefused)
  · exact (accompany_secures h₁).mono fun answer s₂ hend =>
      ⟨hend.1, hend.2.1, fun hzero => hend.2.2 (hmade hzero).2⟩

def Started (ds : List Event) (answer : Except DeskError Unit) (s : Scene) : Prop :=
  s.Rests ds ∧ ∀ e, answer = .error e → e = .system .tryAgain ∨ e = .disconnected ∧ Perished s.past

def takeUp : Op Unit := do
  single .clearFault
  single (.setMode .running)
  launch

theorem takeUp_secures (h : s.Stands ds false false false .atDesk) :
    takeUp.run.Secures sc (Fits sc q) (Started ds) s := by
  have hmetronome : s.console.metronome = .none := Thread.here_eq_false.mp h.metronome
  refine Leads.quiet (K := fun _ s => s.Stands ds false false false .atDesk ∧ s.console.board.fault = none)
    (fun s' hdrift => ?_) fun _ s₁ ⟨h₁, hfault₁⟩ => ?_
  · obtain rfl := hdrift.eq_of_gone h.eq_none hmetronome
    exact ⟨⟨trivial, trivial⟩, _, _, rfl, rfl, { h with books := h.books }, rfl⟩
  refine Leads.quiet (K := fun _ s => s.Stands ds false false false .atDesk ∧ s.console.board.fault = none)
    (fun s' hdrift => ?_) fun _ s₂ ⟨h₂, hfault₂⟩ => ?_
  · obtain rfl := hdrift.eq_of_gone h₁.eq_none (Thread.here_eq_false.mp h₁.metronome)
    exact ⟨⟨trivial, trivial⟩, _, _, rfl, rfl, { h₁ with books := h₁.books }, hfault₁⟩
  exact (launch_secures h₂ hfault₂).mono fun _ _ hend => ⟨hend.1, fun e he => .inl (hend.2.1 e he)⟩

theorem start_secures (h : s.Rests ds) : start.run.Secures sc (Fits sc q) (Started ds) s := by
  obtain ⟨a, h⟩ := h
  refine Leads.asksAttached h fun s₁ h₁ => ?_
  cases a with
  | false => exact takeUp_secures h₁
  | true =>
    refine Leads.inert Scene.firm_stands trivial h₁ fun mode s₂ h₂ => ?_
    cases mode with
    | running | paused => exact Secures.done ⟨⟨true, h₂⟩, nofun⟩
    | stopped =>
      refine Secures.andThen (endRun_secures h₂) (fun _ s₃ h₃ => takeUp_secures h₃.1) fun e s₃ h₃ => ?_
      exact Secures.done ⟨⟨false, h₃.1⟩, fun e' he => .inr (h₃.2 e' he)⟩

/-- The run is over, and the desk tells of its fault. -/
theorem stop_secures (h : s.Rests ds) :
    stop.run.Secures sc (Fits sc q)
      (fun
        | .ok _, s => s.Stands ds false false false (.inHand none)
        | .error (.fault f), s => s.Stands ds false false false (.inHand (some f))
        | .error e, s => e = .disconnected ∧ Perished s.past ∧ s.Stands ds false false false .atDesk) s := by
  obtain ⟨a, h⟩ := h
  refine Secures.andThen (endRun_secures h) (fun _ s₁ h₁ => ?_) fun e s₁ h₁ => ?_
  · refine Leads.quiet (K := fun f s => s.Stands ds false false false (.inHand f)) (fun s' hdrift => ?_) ?_
    · have h := h₁.1.drifts hdrift
      exact ⟨⟨trivial, trivial⟩, _, _, rfl, rfl, h.takesPending⟩
    rintro (_ | f) s₂ h₂
    · exact Secures.done h₂
    · exact Secures.done h₂
  · obtain ⟨rfl, hperished⟩ := h₁.2 e rfl
    exact Secures.done ⟨rfl, hperished, h₁.1⟩

structure Ready (ds : List Event) (p : Processor) (s : Scene) : Prop where
  stands : s.Stands ds false false false .atDesk
  board : s.console.board = { mode := .running, rate := s.console.board.rate }
  parked : s.console.desk.parked = p
  pending : s.console.desk.pending = none

def Loaded (p : Processor) (c : Console) : Prop :=
  c.desk.parked = p ∧ c.board.timers = {} ∧ c.board.screen = .blank

def install (program : List UInt8) (p : Processor) : Op Unit := do
  single (.park p)
  single .resetBoard
  single (.note (.loaded program.length))
  start

def tellAndInstall (program : List UInt8) (p : Processor) : Op Unit := do
  if let some f ← single .takePending then single (.note (.previousRunEnded f))
  install program p

def AboutToLaunch (ds : List Event) (p : Processor) (rest : Procedure (Except DeskError Unit)) (s : Scene) : Prop :=
  rest = launch.run ∧ Ready ds p s

section

variable {program : List UInt8} {p : Processor}

/-- There is no run, so nothing comes between the actions of an installation. -/
theorem install_leads (hq : ∃ program, q = .reset program) (h : s.Stands ds false false false (.inHand none)) :
    (install program p).run.Leads sc (Fits sc q) (AboutToLaunch ds p) s := by
  refine Leads.alone (K := fun _ s => s.Stands ds false false false (.inHand none) ∧ s.console.desk.parked = p)
    h ⟨hq, h.eq_none⟩ (fun _ c hact => ?_) fun _ s ⟨h, hparked⟩ => ?_
  · cases hact
    exact ⟨(h.add (Event.plain_seated p)).unmoved ⟨rfl, rfl, rfl, rfl, rfl, rfl⟩, rfl⟩
  have hnone : unreported s.past = [] := List.getLast?_eq_none_iff.mp h.books.2.1
  refine Leads.alone (K := fun _ s => s.Stands ds false false false (.inHand none) ∧ Loaded p s.console) h
    ⟨hq, h.eq_none, hnone⟩ (fun _ c hact => ?_) fun _ s ⟨h, hloaded⟩ => ?_
  · cases hact
    exact ⟨(h.add Event.plain_cleared).unmoved ⟨rfl, rfl, rfl, rfl, rfl, rfl⟩, hparked, rfl, rfl⟩
  refine Leads.alone (K := fun _ s => s.Stands ds false false false (.inHand none) ∧ Loaded p s.console) h
    ⟨trivial, trivial⟩ (fun _ c hact => ?_) fun _ s ⟨h, hloaded⟩ => ?_
  · cases hact
    rw [Scene.did_of_quiet rfl]
    exact ⟨h.unmoved ⟨rfl, rfl, rfl, rfl, rfl, rfl⟩, hloaded⟩
  refine Leads.alone (K := fun x s => x = false ∧ s.Stands ds false false false (.inHand none) ∧ Loaded p s.console) h
    ⟨trivial, trivial⟩ (fun _ c hact => ?_) ?_
  · cases hact
    rw [Scene.did_of_quiet rfl]
    exact ⟨h.attached, h, hloaded⟩
  rintro _ s ⟨rfl, h, hloaded⟩
  refine Leads.alone
    (K := fun _ s => s.Stands ds false false false (.inHand none) ∧ Loaded p s.console ∧ s.console.board.fault = none) h
    ⟨trivial, trivial⟩ (fun _ c hact => ?_) fun _ s ⟨h, hloaded, hfault⟩ => ?_
  · cases hact
    rw [Scene.did_of_quiet rfl]
    exact ⟨{ h with books := h.books }, hloaded, rfl⟩
  refine Leads.alone (K := fun _ => Ready ds p) h ⟨trivial, trivial⟩ (fun _ c hact => ?_) fun _ s h => .here ⟨rfl, h⟩
  cases hact
  rw [Scene.did_of_quiet rfl]
  refine ⟨{ h.of_inHand with books := h.of_inHand.books }, ?_, hloaded.1, h.books.2.2⟩
  obtain ⟨hparked, htimers, hscreen⟩ := hloaded
  simp only [← htimers, ← hscreen, ← hfault]

theorem tellAndInstall_leads (hq : ∃ program, q = .reset program) (h : s.Stands ds false false false .atDesk) :
    (tellAndInstall program p).run.Leads sc (Fits sc q) (AboutToLaunch ds p) s := by
  refine Leads.alone (K := fun f s => s.Stands ds false false false (.inHand f)) h ⟨trivial, trivial⟩
    (fun f c hact => ?_) ?_
  · cases hact
    rw [Scene.did_of_quiet rfl]
    exact h.takesPending
  rintro (_ | f) s h
  · exact install_leads hq h
  · refine Leads.alone (K := fun _ s => s.Stands ds false false false (.inHand none)) h ⟨trivial, h.books.2.1⟩
      (fun _ c hact => ?_) fun _ s h => install_leads hq h
    cases hact
    exact (h.tells rfl).unmoved ⟨rfl, rfl, rfl, rfl, rfl, rfl⟩

/-- **A reset to a program that fits** comes to where only the clocks are to be made, whatever it found. -/
theorem reset_leads (sc : Scenario) (hp : Processor.withProgram? program = some p) (hq : ∃ program, q = .reset program)
    (h : s.Rests ds) : (reset program).run.Leads sc (Fits sc q) (AboutToLaunch ds p) s := by
  obtain ⟨a, h⟩ := h
  unfold reset
  rw [hp]
  refine Secures.lift (p := endRun.run) (endRun_secures h) fun answer s₁ h₁ => ?_
  cases answer with
  | ok u => exact tellAndInstall_leads hq h₁.1
  | error e => exact Leads.inert Scene.firm_stands trivial h₁.1 fun _ s h => tellAndInstall_leads hq h

end

end Order

end ChipEight
