import ChipEight.Proofs.Office.ToneCalls

/-!
# The phases of an order

What holds of run, timer clock and tone changes as the desk goes through a method of `Machine`, but only from phase to
phase: in each of them the clocks may move as they like, and an action leads from one to the next.

* `TonePhase`, `TonePhase.Holds` : the phases, and what holds in them.
* `TonePhase.Holds.plainMove` : the clocks keep what holds.
* `TonePhase.After`, `TonePhase.Holds.act` : which action leads where.
* `Procedure.Conforms` : whatever its actions answer, a procedure goes from phase to phase.
-/

namespace ChipEight

/-- How far the desk has come with a run and with its tone. -/
inductive TonePhase where
  /-- Nothing is left to be done for the tone. -/
  | settled
  /-- The desk has looked at the run state, and is about to set it. -/
  | astride
  -- the end of a run
  /-- The run was told to stop. -/
  | stopping
  /-- The desk has let go of the run, and waits for its runner. -/
  | letGo
  /-- The runner was joined, and the desk waits for the timer clock. -/
  | deserted
  /-- There is no run. -/
  | vacant
  -- the beginning of a run
  /-- There is no run, and no fault on the board. -/
  | cleared
  /-- The run state was set, and there is no runner yet. -/
  | launching
  /-- There is a runner, and no timer clock yet. -/
  | crewed
  /-- There will be no timer clock, and the run was told to stop. -/
  | givenUp
  /-- Both clocks are made, and the desk has no run to join yet. -/
  | manned
  -- the tone
  /-- The tone is to be settled. -/
  | owing
  /-- The tone is to be started. -/
  | sounding
  /-- The tone is to be stopped. -/
  | hushing
  /-- The runner was sent a job. -/
  | asked (j : Job) (ticket : Nat)

/-- The reply is one to this job. -/
def Reply.Answers (j : Job) : Reply → Prop
  | .captured _ => j = .capture
  | .restored => ∃ m, j = .restore m

namespace Console

/-- No runner is alive. -/
def Unmanned (c : Console) : Prop := ∀ r, c.runner ≠ .live r

/-- Neither clock is alive. -/
def Vacated (c : Console) : Prop := c.Unmanned ∧ c.Untimed

/-- Unless a fault has ended the run, it was not stopped, and its timer clock is not about to leave. -/
def Ongoing (c : Console) : Prop :=
  c.board.fault = none → c.board.mode ≠ .stopped ∧ ∃ m, c.metronome = .live m ∧ m ≠ .leaving

/-- The desk has a run that is ongoing, or it has none and neither clock is alive. -/
def Coherent (c : Console) : Prop := (c.desk.attached = true → c.Ongoing) ∧ (c.desk.attached = false → c.Vacated)

/-- The job is in the queue, or it was replied to, or the runner went before that. -/
inductive Underway (j : Job) (ticket : Nat) (c : Console) : Prop
  | waiting {r : Runner} (hlive : c.runner = .live r) (hjobs : c.mail.jobs = [(ticket, j)])
    (hreplies : c.mail.replies = [])
  | replied {reply : Reply} (hanswers : reply.Answers j) (hjobs : c.mail.jobs = [])
    (hreplies : c.mail.replies = [(ticket, reply)])
  | lost (hgone : c.Unmanned) (hjobs : c.mail.jobs = []) (hreplies : c.mail.replies = [])

end Console

namespace TonePhase

/-- Run and clocks are as they are in this phase. -/
def Fits : TonePhase → Console → Prop
  | .settled, c | .astride, c => c.Coherent
  | .stopping, c => c.desk.attached = false → c.Vacated
  | .letGo, c => c.desk.attached = false
  | .deserted, c => c.desk.attached = false ∧ c.Unmanned
  | .vacant, c | .cleared, c => c.desk.attached = false ∧ c.Vacated
  | .launching, c => c.desk.attached = false ∧ c.Vacated ∧ (c.board.fault = none → c.board.mode ≠ .stopped)
  | .crewed, c => c.desk.attached = false ∧ c.Untimed ∧ (c.board.fault = none → c.board.mode ≠ .stopped)
  | .givenUp, c => c.desk.attached = false ∧ c.Untimed
  | .manned, c => c.desk.attached = false ∧ c.Ongoing
  | .owing, c | .sounding, c | .asked _ _, c => c.desk.attached = true ∧ c.Ongoing
  | .hushing, c => c.desk.attached = true ∧ c.Ongoing ∧ c.board.timers.sound = 0

/-- The mailbox is as it is in this phase. -/
def Mails : TonePhase → Console → Prop
  | .asked j ticket, c => c.Underway j ticket
  | _, c => c.mail.Quiet

/-- With these replies the tone is about to be settled. -/
def Owes : TonePhase → List (Nat × Reply) → Prop
  | .manned, _ | .owing, _ | .sounding, _ | .hushing, _ => True
  | .asked (.restore _) _, replies => replies ≠ []
  | _, _ => False

/-- A run that a fault has ended looks stopped, unless the fault came between a look at the run state and its setting
(`torn`). -/
def ShowsFault (torn : Prop) : TonePhase → Console → Prop
  | .astride, c => c.board.fault ≠ none → torn
  | .cleared, c | .launching, c => c.board.fault = none
  | _, c => c.board.fault ≠ none → c.board.mode = .stopped ∨ torn

/-- What holds in a phase, where the last call about the tone has left it out of tune or not (`late`). -/
structure Holds (σ : TonePhase) (late torn : Prop) (c : Console) : Prop where
  fits : σ.Fits c
  mails : σ.Mails c
  tone : ¬ σ.Owes c.mail.replies → c.ToneKept late
  shows : σ.ShowsFault torn c

end TonePhase

/-! ### Moves of the clocks -/

namespace Console

variable {sc : Scenario} {c c' : Console} {es : List Event} {j : Job} {ticket : Nat}

/-- Where there is no fault after a move there was none before, and the run state is the same. -/
theorem Moves.faultless (h : c.Moves sc c' es) (hsc : sc.Only Happening.KeepsMode) (hfault : c'.board.fault = none) :
    c.board.fault = none ∧ c'.board.mode = c.board.mode := by
  cases h with
  | step hlive hstage stage mode rate journal hmode | die hlive hstage mode rate journal hmode =>
    exact ⟨hfault, hmode hsc⟩
  | fail => cases hfault
  | _ => exact ⟨hfault, rfl⟩

/-- Unless the runner is about to record a fault, fault and run state stay. -/
theorem Moves.board_eq (h : c.Moves sc c' es) (hsc : sc.Only Happening.KeepsMode) (hfailing : c.failing? = none) :
    c'.board.fault = c.board.fault ∧ c'.board.mode = c.board.mode := by
  cases h with
  | step hlive hstage stage mode rate journal hmode | die hlive hstage mode rate journal hmode => exact ⟨rfl, hmode hsc⟩
  | @fail r f hlive hstage =>
    obtain ⟨processor, batchRate, stage⟩ := r
    cases hstage
    simp only [failing?, hlive] at hfailing
    cases hfailing
  | _ => exact ⟨rfl, rfl⟩

/-- Who hands out copies leaves the rest alone. -/
theorem Moves.of_captures (h : c.Moves sc c' es) (hjobs : c.OnlyCaptures) :
    c'.mail.replies = c.mail.replies ∨
      c'.board = c.board ∧ c'.metronome = c.metronome ∧ c'.tally = c.tally := by
  cases h with
  | copy => exact .inr ⟨rfl, rfl, rfl⟩
  | @install r ticket m jobs hlive hstage hhead =>
    have hcapture : Job.restore m = .capture := hjobs (ticket, .restore m) (by rw [hhead]; exact List.mem_cons_self)
    cases hcapture
  | _ => exact .inl rfl

/-- Unless the run state is `stopped` the timer clock stays. -/
theorem stays_metronomeMove {m : Metronome} (hmode : c.board.mode ≠ .stopped) (hlive : c.metronome = .live m)
    (hm : m ≠ .leaving) (due : Bool) :
    ∃ m', (c.metronomeMove { sc with silencingKills := false } due m).metronome = .live m' ∧ m' ≠ .leaving := by
  cases m with
  | looking =>
    simp only [metronomeMove]
    split
    · next hstopped => exact absurd hstopped hmode
    · exact ⟨.looking, hlive, by decide⟩
    · split
      · exact ⟨.ticking, rfl, by decide⟩
      · exact ⟨.looking, hlive, by decide⟩
  | ticking =>
    refine ⟨_, rfl, ?_⟩
    split <;> decide
  | silencing => exact ⟨.looking, rfl, by decide⟩
  | leaving => exact absurd rfl hm

variable (hapart : sc.Only Happening.Apart)

include hapart

omit hapart in
theorem Unmanned.moves (h : c.Unmanned) (hmoves : c.Moves sc c' es) : c'.Unmanned := by
  intro r hlive
  obtain ⟨r, hlive⟩ := hmoves.live_of_live hlive
  exact h r hlive

theorem Untimed.plainMove (h : c.Untimed) (hmove : c.PlainMove sc c') : c'.Untimed := by
  cases hmove with
  | runner hlive hplain due =>
    unfold Untimed
    rwa [metronome_runnerMove hapart]
  | metronome hlive due => exact absurd hlive (h _)

theorem Ongoing.plainMove (hkeeps : sc.Only Happening.KeepsMode) (h : c.Ongoing) (hmove : c.PlainMove sc c') :
    c'.Ongoing := by
  obtain ⟨es, hmoves⟩ := hmove.moves hapart
  intro hfault
  obtain ⟨hfault, hmode⟩ := hmoves.faultless hkeeps hfault
  obtain ⟨hrun, m, hlive, hm⟩ := h hfault
  refine ⟨hmode ▸ hrun, ?_⟩
  cases hmove with
  | runner hlive' hplain due => exact ⟨m, (metronome_runnerMove hapart due _).trans hlive, hm⟩
  | metronome hlive' due =>
    rw [hlive] at hlive'
    cases hlive'
    exact stays_metronomeMove hrun hlive hm due

/-- Where the sound timer is zero it stays so, unless the machine is replaced. -/
theorem sound_plainMove (hmove : c.PlainMove sc c') (hquiet : c'.mail.replies = c.mail.replies)
    (h : c.board.timers.sound = 0) : c'.board.timers.sound = 0 := by
  cases hmove with
  | runner hlive hplain due => exact (sound_runnerMove hapart hlive hplain hquiet).trans h
  | @metronome m hlive due =>
    cases m with
    | looking =>
      simp only [metronomeMove]
      split
      · exact h
      · exact h
      · split <;> exact h
    | ticking =>
      show Timers.countDown c.board.timers.sound = 0
      rw [h]
      rfl
    | silencing | leaving => exact h

omit hapart in
/-- The job waits, until the runner replies or goes. -/
theorem Underway.moves (h : c.Underway j ticket) (hmoves : c.Moves sc c' es) : c'.Underway j ticket := by
  cases h with
  | replied hanswers hjobs hreplies =>
    obtain ⟨hjobs', hreplies'⟩ := hmoves.mail_eq hjobs
    exact .replied hanswers hjobs' (hreplies'.trans hreplies)
  | lost hgone hjobs hreplies =>
    obtain ⟨hjobs', hreplies'⟩ := hmoves.mail_eq hjobs
    exact .lost (hgone.moves hmoves) hjobs' (hreplies'.trans hreplies)
  | waiting hlive hjobs hreplies =>
    cases hmoves with
    | pass | step | fail => exact .waiting rfl hjobs hreplies
    | tick | hush => exact .waiting hlive hjobs hreplies
    | die | leave => exact .lost nofun rfl hreplies
    | @copy r ticket' jobs hlive hstage hhead =>
      rw [hjobs] at hhead
      cases hhead
      have hanswers : Reply.Answers .capture (.captured (c.board.machine r.processor)) := rfl
      exact .replied hanswers rfl (by simp [Mailbox.reply, hreplies])
    | @install r ticket' m jobs hlive hstage hhead =>
      rw [hjobs] at hhead
      cases hhead
      have hanswers : Reply.Answers (.restore m) .restored := ⟨m, rfl⟩
      exact .replied hanswers rfl (by simp [Mailbox.reply, hreplies])

end Console

namespace TonePhase

open Console (PlainMove)

variable {sc : Scenario} {σ σ' : TonePhase} {late torn torn' : Prop} {c c' : Console}

theorem Fits.congr (h : σ.Fits c) (hattached : c'.desk.attached = c.desk.attached)
    (hunmanned : c.Unmanned → c'.Unmanned) (huntimed : c.Untimed → c'.Untimed) (hongoing : c.Ongoing → c'.Ongoing)
    (hfaultless : c'.board.fault = none → c.board.fault = none ∧ c'.board.mode = c.board.mode)
    (hzero : σ = .hushing → c.board.timers.sound = 0 → c'.board.timers.sound = 0) : σ.Fits c' := by
  have hvacated (hand : c.Vacated) : c'.Vacated := ⟨hunmanned hand.1, huntimed hand.2⟩
  have hmode (hmode : c.board.fault = none → c.board.mode ≠ .stopped) (hfault : c'.board.fault = none) :
      c'.board.mode ≠ .stopped := by
    obtain ⟨hfault, hsame⟩ := hfaultless hfault
    exact hsame ▸ hmode hfault
  cases σ with
  | settled | astride =>
    exact ⟨fun hrun => hongoing (h.1 (hattached ▸ hrun)), fun hnone => hvacated (h.2 (hattached ▸ hnone))⟩
  | stopping => exact fun hnone => hvacated (h (hattached ▸ hnone))
  | letGo => exact hattached.trans h
  | deserted => exact ⟨hattached.trans h.1, hunmanned h.2⟩
  | vacant | cleared => exact ⟨hattached.trans h.1, hvacated h.2⟩
  | launching => exact ⟨hattached.trans h.1, hvacated h.2.1, hmode h.2.2⟩
  | crewed => exact ⟨hattached.trans h.1, huntimed h.2.1, hmode h.2.2⟩
  | givenUp => exact ⟨hattached.trans h.1, huntimed h.2⟩
  | manned | owing | sounding | asked => exact ⟨hattached.trans h.1, hongoing h.2⟩
  | hushing => exact ⟨hattached.trans h.1, hongoing h.2.1, hzero rfl h.2.2⟩

theorem ShowsFault.congr (h : σ.ShowsFault torn c) (hfault : c'.board.fault = c.board.fault)
    (hmode : c'.board.mode = c.board.mode) (htorn : torn → torn') : σ.ShowsFault torn' c' := by
  cases σ with
  | astride => exact fun hfault' => htorn (h (hfault ▸ hfault'))
  | cleared | launching => exact hfault.trans h
  | _ => exact fun hfault' => (h (hfault ▸ hfault')).imp hmode.trans htorn

/-- A fault that is recorded stops the run, and if the desk is astride it comes between. -/
theorem ShowsFault.runnerMove (hapart : sc.Only Happening.Apart) (hkeeps : sc.Only Happening.KeepsMode)
    (h : σ.ShowsFault torn c) (hfits : σ.Fits c) {r : Runner} (hlive : c.runner = .live r) (due : Bool)
    (hfails : c.failing? ≠ none → σ = .astride → torn') (hquiet : c.failing? = none → torn → torn') :
    σ.ShowsFault torn' (c.runnerMove sc due r) := by
  cases hfailing : c.failing? with
  | none =>
    obtain ⟨hfault, hmode⟩ := (Console.moves_runner hapart hlive due).board_eq hkeeps hfailing
    exact h.congr hfault hmode (hquiet hfailing)
  | some f =>
    obtain ⟨r', hlive', hstage⟩ := Console.of_failing? hfailing
    obtain rfl : r = r' := by
      rw [hlive] at hlive'
      exact Thread.live.inj hlive'
    have hmode : (c.runnerMove sc due r).board.mode = .stopped := by
      simp only [Console.runnerMove, hstage]
      rfl
    have hnow : c.failing? ≠ none := by simp [hfailing]
    cases σ with
    | astride => exact fun _ => hfails hnow rfl
    | cleared => exact absurd hlive (hfits.2.1 r)
    | launching => exact absurd hlive (hfits.2.1.1 r)
    | _ => exact fun _ => .inl hmode

theorem ShowsFault.metronomeMove (h : σ.ShowsFault torn c) (due : Bool) (m : Metronome) (htorn : torn → torn') :
    σ.ShowsFault torn' (c.metronomeMove sc due m) := by
  obtain ⟨-, -, hboard⟩ := Console.metronomeMove_eq (c := c) sc due m
  exact h.congr (by rw [hboard]) (by rw [hboard]) htorn

theorem Mails.moves {es : List Event} (h : σ.Mails c) (hmoves : c.Moves sc c' es) : σ.Mails c' := by
  cases σ with
  | asked => exact Console.Underway.moves h hmoves
  | _ =>
    obtain ⟨hjobs, hreplies⟩ := hmoves.mail_eq h.1
    exact ⟨hjobs, hreplies.trans h.2⟩

/-- Only a job that the desk waits for is replied to. -/
theorem Mails.of_reply {es : List Event} (h : σ.Mails c) (hmoves : c.Moves sc c' es)
    (hreply : c'.mail.replies ≠ c.mail.replies) :
    ∃ j ticket, σ = .asked j ticket ∧ c.mail.jobs = [(ticket, j)] ∧ c.mail.replies = [] := by
  cases σ with
  | asked j ticket =>
    cases h with
    | waiting hlive hjobs hreplies => exact ⟨j, ticket, rfl, hjobs, hreplies⟩
    | replied hanswers hjobs | lost hgone hjobs => exact absurd (hmoves.mail_eq hjobs).2 hreply
  | _ => exact absurd (hmoves.mail_eq h.1).2 hreply

/-- **The clocks keep what holds** in any phase. -/
theorem Holds.plainMove (hapart : sc.Only Happening.Apart) (hkeeps : sc.Only Happening.KeepsMode)
    (h : σ.Holds late torn c) (hmove : c.PlainMove sc c') (hshows : σ.ShowsFault torn' c') :
    σ.Holds (c.lateAfter c' late) torn' c' := by
  obtain ⟨es, hmoves⟩ := hmove.moves hapart
  have hzero (hσ : σ = .hushing) (hsound : c.board.timers.sound = 0) : c'.board.timers.sound = 0 := by
    have hmails := h.mails
    subst hσ
    exact Console.sound_plainMove hapart hmove (hmoves.mail_eq hmails.1).2 hsound
  have hfits : σ.Fits c' :=
    h.fits.congr (congrArg Desk.attached hmoves.desk_eq) (·.moves hmoves) (·.plainMove hapart hmove)
      (·.plainMove hapart hkeeps hmove) (hmoves.faultless hkeeps) hzero
  refine ⟨hfits, h.mails.moves hmoves, fun hnot => ?_, hshows⟩
  by_cases hquiet : c'.mail.replies = c.mail.replies
  · exact Console.toneKept_plainMove hapart (h.tone (hquiet ▸ hnot)) hmove hquiet
  obtain ⟨j, ticket, rfl, hjobs, hnone⟩ := h.mails.of_reply hmoves hquiet
  cases j with
  | capture =>
    have hcaptures : c.OnlyCaptures := by simp [Console.OnlyCaptures, hjobs]
    obtain hsame | ⟨hboard, hmetronome, htally⟩ := hmoves.of_captures hcaptures
    · exact absurd hsame hquiet
    · exact (h.tone not_false).of_eq hmetronome (by rw [htally]) (by rw [htally]) (by rw [hboard])
  | restore m =>
    -- the machine was replaced: the tone is about to be settled
    have hstill : c'.mail.replies = [] := not_not.mp hnot
    exact absurd (hstill.trans hnone.symm) hquiet

end TonePhase

/-! ### Actions of the desk -/

/-- An action that changes nothing that has to do with the tone. -/
def Action.SparesTone : Action → Prop
  | .readMode | .readFault | .readRate | .setRate _ | .readSound | .isAttached | .park _ | .captureParked
  | .setPending _ | .takePending | .createFile | .appendFile _ | .readFile | .statePath | .note _ => True
  | _ => False

/-- The phase in which the desk is with a reply: when the machine was replaced, the tone is to be settled. -/
def Job.phaseAfter : Job → Option Reply → TonePhase
  | .restore _, some .restored => .owing
  | _, _ => .settled

theorem Job.phaseAfter_eq (j : Job) (reply : Option Reply) :
    j.phaseAfter reply = .owing ∨ j.phaseAfter reply = .settled := by
  unfold Job.phaseAfter
  split
  · exact .inl rfl
  · exact .inr rfl

namespace TonePhase

/-- The desk stays in this phase with any action that spares the tone. -/
def Lasting : TonePhase → Prop
  | .astride | .sounding | .hushing | .asked _ _ => False
  | _ => True

/-- From which phase to which an action leads with its answer.  Only a request that may set a run state that it has
looked at (`T`) leads astride. -/
inductive After (T : Prop) : TonePhase → (a : Action) → a.Answer → TonePhase → Prop
  | spares {σ : TonePhase} {a : Action} {x : a.Answer} (hσ : σ.Lasting) (ha : a.SparesTone) : After T σ a x σ
  /-- Where there is no run, the tone is settled too. -/
  | noRun {a : Action} {x : a.Answer} {σ : TonePhase} (h : After T .settled a x σ) : After T .vacant a x σ
  | looks {s : Mode} (hT : T) (hs : s ≠ .stopped) : After T .settled .readMode s .astride
  | toggles {s : Mode} (hs : s ≠ .stopped) : After T .astride (.setMode s) () .settled
  -- the end of a run
  | stops : After T .settled (.setMode .stopped) () .stopping
  | findsNone : After T .settled .isAttached false .vacant
  | findsNoneLeft : After T .stopping .isAttached false .vacant
  | letsGo : After T .stopping .detach () .letGo
  | joinsRunner {whole : Bool} : After T .letGo .joinRunner whole .deserted
  | joinsMetronome {whole : Bool} : After T .deserted .joinMetronome whole .vacant
  -- between two runs
  | empties : After T .vacant .resetBoard () .vacant
  | replaces {m : Machine} : After T .vacant (.replaceParked m) () .vacant
  | silences : After T .vacant .stopTone () .vacant
  -- the beginning of a run
  | clears : After T .vacant .clearFault () .cleared
  | begins {s : Mode} (hs : s ≠ .stopped) : After T .cleared (.setMode s) () .launching
  | spawnsRunner : After T .launching .spawnRunner true .crewed
  | lacksRunner : After T .launching .spawnRunner false .launching
  | calledOff : After T .launching (.setMode .stopped) () .vacant
  | spawnsMetronome : After T .crewed .spawnMetronome true .manned
  | lacksMetronome : After T .crewed .spawnMetronome false .crewed
  | givesUp : After T .crewed (.setMode .stopped) () .givenUp
  | joinsAgain {whole : Bool} : After T .givenUp .joinRunner whole .vacant
  | attaches : After T .manned .attach () .owing
  -- the tone
  | counts {n : UInt8} (hn : 0 < n) : After T .owing .readSound n .sounding
  | isOver {n : UInt8} (hn : ¬ 0 < n) : After T .owing .readSound n .hushing
  | starts : After T .sounding .startTone () .settled
  | hushes : After T .hushing .stopTone () .settled
  -- two answers that do not come
  | hasRun : After T .vacant .isAttached true .owing
  | hasNone : After T .owing .isAttached false .hushing
  -- jobs
  | posts {j : Job} {ticket : Nat} : After T .settled (.post j) (some ticket) (.asked j ticket)
  | findsNobody {j : Job} : After T .settled (.post j) none .settled
  | collects {j : Job} {ticket : Nat} {reply : Option Reply} {σ : TonePhase} (hσ : σ = j.phaseAfter reply) :
    After T (.asked j ticket) (.collect ticket) reply σ

section

variable {T : Prop} {σ σ' : TonePhase} {a : Action}

theorem toggles_of_after {x : a.Answer} (h : σ.After T a x .astride) : T := by
  cases h with
  | spares hσ => exact hσ.elim
  | looks hT => exact hT
  | noRun h =>
    cases h with
    | looks hT => exact hT
  | @collects j ticket reply _ hσ => rcases j.phaseAfter_eq reply with hend | hend <;> cases hσ.trans hend

theorem setMode_of_astride {x : a.Answer} (h : astride.After T a x σ') : ∃ s, s ≠ .stopped ∧ a = .setMode s := by
  cases h with
  | spares hσ => exact hσ.elim
  | toggles hs => exact ⟨_, hs, rfl⟩

theorem sounding_of_startTone {x : Action.startTone.Answer} (h : σ.After T .startTone x σ') : σ = .sounding := by
  cases h with
  | spares hσ ha => exact ha.elim
  | starts => rfl
  | noRun h =>
    cases h with
    | spares hσ ha => exact ha.elim

theorem startTone_of_sounding {x : a.Answer} (h : sounding.After T a x σ') : a = .startTone := by
  cases h with
  | spares hσ => exact hσ.elim
  | starts => rfl

theorem of_stopTone {x : Action.stopTone.Answer} (h : σ.After T .stopTone x σ') : σ = .hushing ∨ σ = .vacant := by
  cases h with
  | spares hσ ha => exact ha.elim
  | silences => exact .inr rfl
  | hushes => exact .inl rfl
  | noRun h => exact .inr rfl

/-- The desk is about to start the tone when it has read that the sound timer counts. -/
theorem sound_ne_zero_of_after {x : a.Answer} {c c' : Console} (h : σ.After T a x .sounding)
    (hact : c.act a = some (x, c')) : c'.board.timers.sound ≠ 0 := by
  cases h with
  | spares hσ => exact hσ.elim
  | counts hn =>
    cases hact
    exact UInt8.pos_iff_ne_zero.mp hn
  | noRun h => cases h
  | @collects j ticket reply _ hσ => rcases j.phaseAfter_eq reply with hend | hend <;> cases hσ.trans hend

end

end TonePhase

namespace Console

variable {c c' : Console}

/-- The two differ in nothing that has to do with the tone. -/
structure AlikeInTone (c c' : Console) : Prop where
  attached : c'.desk.attached = c.desk.attached
  runner : c'.runner = c.runner
  metronome : c'.metronome = c.metronome
  tally : c'.tally = c.tally
  sound : c'.board.timers.sound = c.board.timers.sound
  mode : c'.board.mode = c.board.mode
  fault : c'.board.fault = c.board.fault
  mail : c'.mail = c.mail

theorem alike_of_spares {a : Action} {x : a.Answer} (ha : a.SparesTone) (hact : c.act a = some (x, c')) :
    c.AlikeInTone c' := by
  cases a with
  | createFile =>
    rcases of_createFile hact with ⟨file, -, -, rfl⟩ | ⟨e, -, -, rfl⟩
    all_goals exact ⟨rfl, rfl, rfl, rfl, rfl, rfl, rfl, rfl⟩
  | appendFile bytes =>
    rcases of_appendFile hact with ⟨file, -, -, rfl⟩ | ⟨e, -, -, rfl⟩
    all_goals exact ⟨rfl, rfl, rfl, rfl, rfl, rfl, rfl, rfl⟩
  | readMode | readFault | readRate | setRate | readSound | isAttached | park | captureParked | setPending | takePending
  | readFile | statePath | note =>
    cases hact
    exact ⟨rfl, rfl, rfl, rfl, rfl, rfl, rfl, rfl⟩
  | _ => exact ha.elim

theorem of_joined {whole : Bool} (hact : c.act .joinRunner = some (whole, c')) :
    ∃ p, c' = { c with runner := .none, desk := { c.desk with parked := p } } := by
  rcases of_joinRunner hact with ⟨hnone, -, rfl⟩ | ⟨p, -, -, rfl⟩ | ⟨-, -, rfl⟩
  · exact ⟨c'.desk.parked, by rw [← hnone]⟩
  · exact ⟨p, rfl⟩
  · exact ⟨.powerOn, rfl⟩

theorem coherent_of_attached (hattached : c.desk.attached = true) (h : c.Ongoing) : c.Coherent :=
  ⟨fun _ => h, fun hnone => absurd (hattached.symm.trans hnone) Bool.false_ne_true.symm⟩

end Console

namespace TonePhase

variable {T : Prop} {σ σ' : TonePhase} {late torn : Prop} {c c' : Console}

theorem Holds.alike (h : σ.Holds late torn c) (hσ : σ.Lasting) (halike : c.AlikeInTone c') :
    σ.Holds (c.lateAfter c' late) torn c' where
  fits := by
    refine h.fits.congr halike.attached ?_ ?_ ?_ (fun hfault => ⟨halike.fault ▸ hfault, halike.mode⟩) fun _ hzero => ?_
    · unfold Console.Unmanned
      rw [halike.runner]
      exact id
    · unfold Console.Untimed
      rw [halike.metronome]
      exact id
    · unfold Console.Ongoing
      rw [halike.metronome, halike.mode, halike.fault]
      exact id
    · rw [halike.sound, hzero]
  mails := by
    have hmails := h.mails
    cases σ with
    | asked j ticket => exact hσ.elim
    | _ =>
      show c'.mail.Quiet
      rw [halike.mail]
      exact hmails
  tone hnot :=
    (h.tone (halike.mail ▸ hnot)).of_eq halike.metronome (by rw [halike.tally]) (by rw [halike.tally]) halike.sound
  shows := h.shows.congr halike.fault halike.mode id

theorem Holds.settled_of_vacant (h : TonePhase.vacant.Holds late torn c) : TonePhase.settled.Holds late torn c where
  fits := ⟨fun hrun => absurd (h.fits.1.symm.trans hrun) Bool.false_ne_true, fun _ => h.fits.2⟩
  mails := h.mails
  tone := h.tone
  shows := h.shows

/-- The desk takes the reply, or learns that there will be none. -/
theorem Holds.collects {j : Job} {ticket : Nat} {reply : Option Reply} (h : (asked j ticket).Holds late torn c)
    (hact : c.act (.collect ticket) = some (reply, c')) :
    (j.phaseAfter reply).Holds (c.lateAfter c' late) torn c' := by
  have hcoherent : c.Coherent := Console.coherent_of_attached h.fits.1 h.fits.2
  have hmails : c.Underway j ticket := h.mails
  cases hmails with
  | waiting hlive hjobs hreplies =>
    rcases Console.of_collect hact with ⟨r, hmem, -⟩ | ⟨hgone, -⟩
    · rw [hreplies] at hmem
      cases hmem
    · exact absurd hlive (hgone _)
  | @replied reply' hanswers hjobs hreplies =>
    simp only [Console.act, Console.collect, Mailbox.collect?, hreplies, List.find?_cons, beq_self_eq_true,
      Option.map_some] at hact
    cases hact
    cases reply' with
    | captured m =>
      cases hanswers
      exact ⟨hcoherent, ⟨hjobs, by simp⟩, fun _ => (h.tone not_false).of_eq rfl rfl rfl rfl, h.shows⟩
    | restored =>
      obtain ⟨m, rfl⟩ := hanswers
      exact ⟨h.fits, ⟨hjobs, by simp⟩, fun hnot => absurd trivial hnot, h.shows⟩
  | lost hgone hjobs hreplies =>
    have htone : c.ToneKept late := by
      cases j with
      | capture => exact h.tone not_false
      | restore m => exact h.tone (not_not.mpr hreplies)
    rcases Console.of_collect hact with ⟨r, hmem, -⟩ | ⟨-, rfl, rfl⟩
    · rw [hreplies] at hmem
      cases hmem
    · have hsettled : j.phaseAfter none = .settled := by cases j <;> rfl
      rw [hsettled]
      exact ⟨hcoherent, ⟨hjobs, hreplies⟩, fun _ => htone.of_eq rfl rfl rfl rfl, h.shows⟩

/-- **An action of the desk** leads from phase to phase. -/
theorem Holds.act (h : σ.Holds late torn c) {a : Action} {x : a.Answer} (hact : c.act a = some (x, c'))
    (hafter : σ.After T a x σ') : σ'.Holds (c.lateAfter c' late) torn c' := by
  have hsame (h : c.ToneKept late) : c.ToneKept (c.lateAfter c late) := h.of_eq rfl rfl rfl rfl
  have hasks {x : Bool} (hact : c.act .isAttached = some (x, c')) : c.desk.attached = x ∧ c = c' := by
    simpa [Console.act] using hact
  induction hafter with
  | spares hσ ha => exact h.alike hσ (Console.alike_of_spares ha hact)
  | noRun _ ih => exact ih h.settled_of_vacant hact
  | looks hT hs =>
    cases hact
    exact ⟨h.fits, h.mails, fun _ => hsame (h.tone not_false), fun hfault => (h.shows hfault).resolve_left hs⟩
  | toggles hs =>
    cases hact
    refine ⟨⟨fun hrun hfault => ⟨hs, (h.fits.1 hrun hfault).2⟩, h.fits.2⟩, h.mails, fun _ => ?_, ?_⟩
    · exact (h.tone not_false).of_eq rfl rfl rfl rfl
    · exact fun hfault => .inr (h.shows hfault)
  | stops =>
    cases hact
    exact ⟨h.fits.2, h.mails, fun _ => (h.tone not_false).of_eq rfl rfl rfl rfl, fun _ => .inl rfl⟩
  | findsNone =>
    obtain ⟨hnone, rfl⟩ := hasks hact
    exact ⟨⟨hnone, h.fits.2 hnone⟩, h.mails, fun _ => hsame (h.tone not_false), h.shows⟩
  | findsNoneLeft =>
    obtain ⟨hnone, rfl⟩ := hasks hact
    exact ⟨⟨hnone, h.fits hnone⟩, h.mails, fun _ => hsame (h.tone not_false), h.shows⟩
  | letsGo =>
    cases hact
    exact ⟨rfl, h.mails, fun _ => (h.tone not_false).of_eq rfl rfl rfl rfl, h.shows⟩
  | joinsRunner =>
    obtain ⟨p, rfl⟩ := Console.of_joined hact
    refine ⟨⟨h.fits, fun r hlive => by cases hlive⟩, h.mails, fun _ => ?_, h.shows⟩
    exact (h.tone not_false).of_eq rfl rfl rfl rfl
  | joinsMetronome =>
    obtain ⟨rfl, hgone⟩ := Console.of_joinMetronome hact
    have huntimed : Console.Untimed { c with metronome := .none } := fun m hlive => by cases hlive
    exact ⟨⟨h.fits.1, h.fits.2, huntimed⟩, h.mails, fun _ => (h.tone not_false).of_untimed hgone huntimed rfl, h.shows⟩
  | empties | replaces =>
    cases hact
    exact ⟨h.fits, h.mails, fun _ => (h.tone not_false).of_untimed h.fits.2.2 h.fits.2.2 rfl, h.shows⟩
  | silences =>
    cases hact
    exact ⟨h.fits, h.mails, fun _ => Console.toneKept_of_call (Nat.succ_ne_self _), h.shows⟩
  | clears =>
    cases hact
    exact ⟨h.fits, h.mails, fun _ => (h.tone not_false).of_eq rfl rfl rfl rfl, rfl⟩
  | begins hs =>
    cases hact
    exact ⟨⟨h.fits.1, h.fits.2, fun _ => hs⟩, h.mails, fun _ => (h.tone not_false).of_eq rfl rfl rfl rfl, h.shows⟩
  | spawnsRunner =>
    rcases Console.of_spawnRunner hact with ⟨hmade, -⟩ | ⟨-, -, rfl⟩
    · cases hmade
    · refine ⟨⟨h.fits.1, h.fits.2.1.2, h.fits.2.2⟩, ⟨rfl, rfl⟩, fun _ => ?_, fun hfault => absurd h.shows hfault⟩
      exact (h.tone not_false).of_eq rfl rfl rfl rfl
  | lacksRunner =>
    rcases Console.of_spawnRunner hact with ⟨-, -, rfl⟩ | ⟨hmade, -⟩
    · exact ⟨h.fits, h.mails, fun _ => (h.tone not_false).of_eq rfl rfl rfl rfl, h.shows⟩
    · cases hmade
  | calledOff =>
    cases hact
    exact ⟨⟨h.fits.1, h.fits.2.1⟩, h.mails, fun _ => (h.tone not_false).of_eq rfl rfl rfl rfl, fun _ => .inl rfl⟩
  | spawnsMetronome =>
    rcases Console.of_spawnMetronome hact with ⟨hmade, -⟩ | ⟨-, -, rfl⟩
    · cases hmade
    · have hongoing : Console.Ongoing { c with refusal := c.refusal - 1, metronome := .live .looking } :=
        fun hfault => ⟨h.fits.2.2 hfault, .looking, rfl, by decide⟩
      exact ⟨⟨h.fits.1, hongoing⟩, h.mails, fun hnot => absurd trivial hnot, h.shows⟩
  | lacksMetronome =>
    rcases Console.of_spawnMetronome hact with ⟨-, -, rfl⟩ | ⟨hmade, -⟩
    · exact ⟨h.fits, h.mails, fun _ => (h.tone not_false).of_eq rfl rfl rfl rfl, h.shows⟩
    · cases hmade
  | givesUp =>
    cases hact
    exact ⟨⟨h.fits.1, h.fits.2.1⟩, h.mails, fun _ => (h.tone not_false).of_eq rfl rfl rfl rfl, fun _ => .inl rfl⟩
  | joinsAgain =>
    obtain ⟨p, rfl⟩ := Console.of_joined hact
    refine ⟨⟨h.fits.1, (fun r hlive => by cases hlive), h.fits.2⟩, h.mails, fun _ => ?_, h.shows⟩
    exact (h.tone not_false).of_eq rfl rfl rfl rfl
  | attaches =>
    cases hact
    exact ⟨⟨rfl, h.fits.2⟩, h.mails, fun hnot => absurd trivial hnot, h.shows⟩
  | counts hn =>
    cases hact
    exact ⟨h.fits, h.mails, fun hnot => absurd trivial hnot, h.shows⟩
  | isOver hn =>
    cases hact
    have hzero : c.board.timers.sound = 0 := not_not.mp fun hnot => hn (UInt8.pos_iff_ne_zero.mpr hnot)
    exact ⟨⟨h.fits.1, h.fits.2, hzero⟩, h.mails, fun hnot => absurd trivial hnot, h.shows⟩
  | starts =>
    cases hact
    have hcalls : c.tally.startTone.toneCalls ≠ c.tally.toneCalls := by simp [Tally.toneCalls, Tally.startTone]
    have hcoherent : c.Coherent := Console.coherent_of_attached h.fits.1 h.fits.2
    exact ⟨hcoherent, h.mails, fun _ => Console.toneKept_of_call hcalls, h.shows⟩
  | hushes =>
    cases hact
    have hcalls : c.tally.stopTone.toneCalls ≠ c.tally.toneCalls := Nat.succ_ne_self _
    have hcoherent : c.Coherent := Console.coherent_of_attached h.fits.1 h.fits.2.1
    exact ⟨hcoherent, h.mails, fun _ => Console.toneKept_of_call hcalls, h.shows⟩
  | hasRun =>
    obtain ⟨hrun, rfl⟩ := hasks hact
    exact absurd (h.fits.1.symm.trans hrun) Bool.false_ne_true
  | hasNone =>
    obtain ⟨hnone, rfl⟩ := hasks hact
    exact absurd (h.fits.1.symm.trans hnone) Bool.false_ne_true.symm
  | @posts j ticket =>
    rcases Console.of_post hact with ⟨r, hlive, hticket, rfl⟩ | ⟨-, hnone, -⟩
    · cases hticket
      have hattached : c.desk.attached = true := Bool.eq_true_of_not_eq_false fun hnone => (h.fits.2 hnone).1 r hlive
      refine ⟨⟨hattached, h.fits.1 hattached⟩, .waiting hlive ?_ h.mails.2, fun _ => ?_, h.shows⟩
      · simp [Mailbox.post, h.mails.1]
      · exact (h.tone not_false).of_eq rfl rfl rfl rfl
    · cases hnone
  | findsNobody =>
    rcases Console.of_post hact with ⟨r, -, hsent, -⟩ | ⟨-, -, rfl⟩
    · cases hsent
    · exact ⟨h.fits, h.mails, fun _ => hsame (h.tone not_false), h.shows⟩
  | collects hσ =>
    subst hσ
    exact h.collects hact

end TonePhase

/-! ### Procedures -/

namespace Procedure

variable {α β : Type} {T : Prop} {Q : α → TonePhase → Prop} {σ : TonePhase}

/-- Whatever its actions answer, they lead from phase to phase, and in the end `Q` holds of the result and the phase. -/
def Conforms (T : Prop) (Q : α → TonePhase → Prop) : Procedure α → TonePhase → Prop
  | .done r, σ => Q r σ
  | .act a next, σ => ∀ x, ∃ σ', σ.After T a x σ' ∧ (next x).Conforms T Q σ'

namespace Conforms

theorem spares {a : Action} {next : a.Answer → Procedure α} (hσ : σ.Lasting) (ha : a.SparesTone)
    (h : ∀ x, (next x).Conforms T Q σ) : (Procedure.act a next).Conforms T Q σ :=
  fun x => ⟨σ, .spares hσ ha, h x⟩

/-- What can be done when the tone is settled can be done without a run. -/
theorem noRun {p : Procedure α} (h : p.Conforms T Q .settled) (hQ : ∀ r, Q r .settled → Q r .vacant) :
    p.Conforms T Q .vacant := by
  cases p with
  | done r => exact hQ r h
  | act a next =>
    intro x
    obtain ⟨σ', hafter, hnext⟩ := h x
    exact ⟨σ', .noRun hafter, hnext⟩

theorem bind {p : Procedure α} {f : α → Procedure β} {R : β → TonePhase → Prop} (h : p.Conforms T Q σ)
    (hf : ∀ r σ, Q r σ → (f r).Conforms T R σ) : (p >>= f).Conforms T R σ := by
  induction p generalizing σ with
  | done r => exact hf r σ h
  | act a next ih =>
    intro x
    obtain ⟨σ', hafter, hnext⟩ := h x
    exact ⟨σ', hafter, ih x hnext⟩

theorem andThen {o : Order.Op α} {f : α → Order.Op β} {P : Except DeskError α → TonePhase → Prop}
    {R : Except DeskError β → TonePhase → Prop} (h : o.run.Conforms T P σ)
    (hok : ∀ r σ, P (.ok r) σ → (f r).run.Conforms T R σ) (herror : ∀ e σ, P (.error e) σ → R (.error e) σ) :
    (o >>= f).run.Conforms T R σ := by
  refine bind (p := o.run) h fun answer σ hend => ?_
  cases answer with
  | ok r => exact hok r σ hend
  | error e => exact herror e σ hend

theorem lifted {p : Procedure α} {R : Except DeskError α → TonePhase → Prop} (h : p.Conforms T Q σ)
    (hR : ∀ r σ, Q r σ → R (.ok r) σ) : (liftM p : Order.Op α).run.Conforms T R σ :=
  bind (p := p) h hR

theorem lift {p : Procedure α} {f : α → Order.Op β} {R : Except DeskError β → TonePhase → Prop} (h : p.Conforms T Q σ)
    (hf : ∀ r σ, Q r σ → (f r).run.Conforms T R σ) : ((liftM p : Order.Op α) >>= f).run.Conforms T R σ := by
  refine bind (p := (liftM p : Order.Op α).run) (h.lifted (R := fun answer σ => ∃ r, answer = .ok r ∧ Q r σ)
    fun r σ hr => ⟨r, rfl, hr⟩) ?_
  rintro _ σ ⟨r, rfl, hr⟩
  exact hf r σ hr

end Conforms

end Procedure

end ChipEight
