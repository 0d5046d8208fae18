import ChipEight.Proofs.Office.OrderPhases

/-!
# Whether the tone is in line with the machine

At the end of every order nothing is left to be done for the tone, in whatever order the clocks moved meanwhile.  What
`sync_tone` has done may have been undone by then, or have come too late.

* `TonePhase.Holds.in_line_iff` : when a settled tone is in line with settled clocks.
* `Office.InPhase`, `Office.InPhase.advance` : what holds in every office, and one turn keeps.
* `Office.callsLate_iff` : a call about the tone leaves it out of tune just if it comes late.
* `Office.tone_in_line_iff` : when the tone is in line with the machine.
* `Office.tone_after_end` : an order of turns in which it is not.
-/

namespace ChipEight

theorem Action.nonempty_answer (a : Action) : Nonempty a.Answer := by
  cases a with
  | readMode => exact ⟨.stopped⟩
  | captureParked => exact ⟨.powerOn⟩
  | readFault | takePending | post | collect => exact ⟨none⟩
  | spawnRunner | spawnMetronome | joinRunner | joinMetronome | isAttached => exact ⟨true⟩
  | createFile | appendFile => exact ⟨.ok ()⟩
  | readFile => exact ⟨.ok []⟩
  | readRate | readSound => exact ⟨0⟩
  | statePath => exact ⟨""⟩
  | _ => exact ⟨()⟩

namespace TonePhase

variable {σ : TonePhase} {late torn torn' : Prop} {c : Console}

theorem Holds.mono (h : σ.Holds late torn c) (htorn : torn → torn') : σ.Holds late torn' c :=
  { h with shows := h.shows.congr rfl rfl htorn }

theorem Holds.settled_of_atRest (h : σ.Holds late torn c) (hσ : σ.AtRest) : settled.Holds late torn c := by
  rcases hσ with rfl | rfl
  · exact h
  · exact h.settled_of_vacant

/-- **Settled clocks** with a settled tone: it can only be that the last call has left the tone out of tune, or that the
timer clock counts on after a fault that came between. -/
theorem Holds.in_line_iff (h : settled.Holds late torn c) (hsettled : c.Settled) :
    (c.tally.sounding = true ↔ c.Alive ∧ c.board.timers.sound ≠ 0) ↔
      (late ↔ torn ∧ c.board.fault ≠ none ∧ ¬ c.Untimed ∧ c.board.timers.sound ≠ 0) := by
  have hcounts : ¬ c.Silencing := by
    rintro (hlive | hlive)
    · cases (hsettled _ hlive).1
    · cases (hsettled _ hlive).1
  have htimed (halive : c.Alive) : ¬ c.Untimed := by
    obtain ⟨-, m, hlive, -⟩ := h.fits.1 halive.1 halive.2.2
    exact fun hnot => hnot m hlive
  have houtlives (htimed : ¬ c.Untimed) : ¬ c.Alive ↔ torn ∧ c.board.fault ≠ none := by
    obtain ⟨m, hlive⟩ : ∃ m, c.metronome = .live m := by
      by_contra hnot
      exact htimed fun m hlive => hnot ⟨m, hlive⟩
    have hmode : c.board.mode ≠ .stopped := (hsettled m hlive).2
    have hattached : c.desk.attached = true := Bool.eq_true_of_not_eq_false fun hnone => htimed (h.fits.2 hnone).2
    constructor
    · intro hdead
      have hfault : c.board.fault ≠ none := fun hfault => hdead ⟨hattached, hmode, hfault⟩
      exact ⟨(h.shows hfault).resolve_left hmode, hfault⟩
    · exact fun hand halive => hand.2 halive.2.2
  have htune : c.InTune ↔ ¬ late := (h.tone not_false).resolve_left hcounts
  unfold Console.InTune at htune
  tauto

end TonePhase

namespace Office

variable {sc : Scenario} {o : Office} {t : Turn} {turns : List Turn} {late torn torn' counted counted' : Prop}

/-- The desk is at the procedure `p` for `q`, in this phase. -/
structure PhaseAt (late torn counted : Prop) (c : Console) (q : Request) (p : Procedure Request.Answer)
    (σ : TonePhase) : Prop where
  holds : σ.Holds late torn c
  conforms : p.Conforms q.Toggles (fun _ σ => σ.AtRest) σ
  toggles : σ = .astride → q.Toggles
  counted : σ = .sounding → counted

/-- Without a request nothing is left to be done for the tone; with one, that will be so at its end. -/
def InPhase (late torn counted : Prop) (o : Office) : Prop :=
  match o.task with
  | none => TonePhase.settled.Holds late torn o.console
  | some (q, p) => ∃ σ, PhaseAt late torn counted o.console q p σ

theorem PhaseAt.astride {s : Scene} {q : Request} {p : Procedure Request.Answer} {σ : TonePhase}
    (h : PhaseAt late torn counted s.console q p σ) (hσ : σ = .astride) : (busy s q p).Astride := by
  subst hσ
  cases p with
  | done answer => rcases h.conforms with hend | hend <;> cases hend
  | act a next =>
    obtain ⟨x⟩ := a.nonempty_answer
    obtain ⟨σ', hafter, -⟩ := h.conforms x
    obtain ⟨s, hs, rfl⟩ := TonePhase.setMode_of_astride hafter
    exact ⟨q, s, next, h.toggles rfl, hs, rfl⟩

theorem inPhase_new (s : Settings) : (Office.new s).InPhase False False counted := by
  have hvacated : (Console.new s).Vacated := ⟨nofun, nofun⟩
  refine ⟨⟨nofun, fun _ => hvacated⟩, ⟨rfl, rfl⟩, fun _ => .inr ?_, fun hfault => absurd rfl hfault⟩
  exact iff_of_true (iff_of_false nofun fun hand => hand.1 hvacated.2) not_false

/-- The clocks, and whoever else is not the desk: the phase is the same. -/
theorem InPhase.keep {s s' : Scene} {task : Option (Request × Procedure Request.Answer)} {late' : Prop}
    (h : InPhase late torn counted { toScene := s, task }) (hcounted : counted → counted')
    (hkeep : ∀ σ : TonePhase, σ.Holds late torn s.console →
      (σ = .astride → Astride { toScene := s, task }) → σ.Holds late' torn' s'.console) :
    InPhase late' torn' counted' { toScene := s', task } := by
  cases task with
  | none => exact hkeep _ h (by simp)
  | some task =>
    obtain ⟨σ, hσ⟩ := h
    exact ⟨σ, hkeep σ hσ.holds hσ.astride, hσ.conforms, hσ.toggles, fun hsounding => hcounted (hσ.counted hsounding)⟩

/-- **One action of the desk.** -/
theorem PhaseAt.act {s : Scene} {q : Request} {a : Action} {next : a.Answer → Procedure Request.Answer} {σ : TonePhase}
    (h : PhaseAt late torn counted s.console q (.act a next) σ) {x : a.Answer} {c : Console}
    (hact : s.console.act a = some (x, c)) (hcounted : c.board.timers.sound ≠ 0 → counted') :
    ∃ σ', PhaseAt (s.console.lateAfter c late) torn counted' c q (next x) σ' := by
  obtain ⟨σ', hafter, hnext⟩ := h.conforms x
  refine ⟨σ', h.holds.act hact hafter, hnext, ?_, ?_⟩
  · rintro rfl
    exact TonePhase.toggles_of_after hafter
  · rintro rfl
    exact hcounted (TonePhase.sound_ne_zero_of_after hafter hact)

/-- The desk does not wait before it starts the tone. -/
theorem PhaseAt.ne_sounding {s : Scene} {q : Request} {a : Action} {next : a.Answer → Procedure Request.Answer}
    {σ : TonePhase} (h : PhaseAt late torn counted s.console q (.act a next) σ) (hwaits : s.console.act a = none) :
    σ ≠ .sounding := by
  rintro rfl
  obtain ⟨x⟩ := a.nonempty_answer
  obtain ⟨σ', hafter, -⟩ := h.conforms x
  cases TonePhase.startTone_of_sounding hafter
  cases hwaits

/-- **One turn**, in whatever order the turns come. -/
theorem InPhase.advance (hapart : sc.Only Happening.Apart) (hkeeps : sc.Only Happening.KeepsMode)
    (h : o.InPhase late torn counted) (hturn : o.PlainTurn t)
    (htorn : (o.RecordsFault t → o.Astride) → (¬ o.RecordsFault t → torn) → torn')
    (hcounted : (t = .desk → (o.advance sc t).console.board.timers.sound ≠ 0) → (t ≠ .desk → counted) → counted') :
    (o.advance sc t).InPhase (o.console.lateAfter (o.advance sc t).console late) torn' counted' := by
  obtain ⟨s, task⟩ := o
  have hquiet (hnot : ¬ RecordsFault { toScene := s, task } t) (h : torn) : torn' :=
    htorn (fun hfails => absurd hfails hnot) fun _ => h
  have hother (ht : t ≠ .desk) (h : counted) : counted' := hcounted (fun hdesk => absurd hdesk ht) fun _ => h
  have hsame (ht : t ≠ .desk) (hnot : ¬ RecordsFault { toScene := s, task } t) :
      InPhase (s.console.lateAfter s.console late) torn' counted' { toScene := s, task } := by
    rw [Console.lateAfter_of_same rfl]
    exact h.keep (hother ht) fun σ hσ _ => hσ.mono (hquiet hnot)
  cases t with
  | runner due =>
    simp only [Office.advance]
    split
    · next r hlive =>
      refine h.keep (hother (by simp)) fun σ hσ hastride => ?_
      refine hσ.plainMove hapart hkeeps (.runner hlive hturn due) ?_
      refine hσ.shows.runnerMove hapart hkeeps hσ.fits hlive due (fun hfails hpause => ?_) fun hnot => ?_
      · exact htorn (fun _ => hastride hpause) fun hnot => absurd hfails hnot
      · exact hquiet fun hfails => hfails hnot
    · next hgone =>
      refine hsame (by simp) fun hfails => ?_
      obtain ⟨f, hfailing⟩ := Option.ne_none_iff_exists'.mp hfails
      obtain ⟨r, hlive, -⟩ := Console.of_failing? hfailing
      exact hgone r hlive
  | metronome due fatal =>
    cases (hturn : fatal = false)
    simp only [Office.advance]
    split
    · next m hlive =>
      refine h.keep (hother (by simp)) fun σ hσ _ => ?_
      exact hσ.plainMove hapart hkeeps (.metronome hlive due) (hσ.shows.metronomeMove due m (hquiet id))
    · exact hsame (by simp) id
  | desk =>
    rcases task with _ | ⟨q, answer | ⟨a, next⟩⟩
    · show InPhase (s.console.lateAfter s.console late) torn' counted' { toScene := s }
      rw [Console.lateAfter_of_same rfl]
      exact TonePhase.Holds.mono h (hquiet id)
    · obtain ⟨σ, hσ⟩ := h
      show InPhase (s.console.lateAfter s.console late) torn' counted' { toScene := s.add (.answered q answer) }
      rw [Console.lateAfter_of_same rfl]
      exact (hσ.holds.settled_of_atRest hσ.conforms).mono (hquiet id)
    · obtain ⟨σ, hσ⟩ := h
      cases hact : s.console.act a with
      | none =>
        have hwaits : Office.advance sc { toScene := s, task := some (q, .act a next) } .desk =
            { toScene := s, task := some (q, .act a next) } := by
          simp only [Office.advance, work, hact]
        rw [hwaits, Console.lateAfter_of_same rfl]
        exact ⟨σ, hσ.holds.mono (hquiet id), hσ.conforms, hσ.toggles, fun hnow => absurd hnow (hσ.ne_sounding hact)⟩
      | some done =>
        obtain ⟨x, c⟩ := done
        have hacts : Office.advance sc { toScene := s, task := some (q, .act a next) } .desk =
            busy (s.did a x c) q (next x) := advance_act sc hact q next
        rw [hacts] at hcounted ⊢
        obtain ⟨σ', hσ'⟩ := hσ.act hact fun hsound => hcounted (fun _ => hsound) fun hnot => absurd rfl hnot
        exact ⟨σ', hσ'.holds.mono (hquiet id), hσ'.conforms, hσ'.toggles, hσ'.counted⟩
  | call q =>
    rcases task with _ | ⟨q', p⟩
    · show InPhase (s.console.lateAfter s.console late) torn' counted'
        { toScene := s.add (.called q), task := some (q, q.order) }
      rw [Console.lateAfter_of_same rfl]
      exact ⟨.settled, TonePhase.Holds.mono h (hquiet id), Order.request_rests q, by simp, by simp⟩
    · exact hsame (by simp) id
  | refuse n =>
    rcases task with _ | ⟨q', p⟩
    · exact TonePhase.Holds.alike (TonePhase.Holds.mono h (hquiet id)) trivial ⟨rfl, rfl, rfl, rfl, rfl, rfl, rfl, rfl⟩
    · exact hsame (by simp) id
  | file f =>
    rcases task with _ | ⟨q', p⟩
    · exact TonePhase.Holds.alike (TonePhase.Holds.mono h (hquiet id)) trivial ⟨rfl, rfl, rfl, rfl, rfl, rfl, rfl, rfl⟩
    · exact hsame (by simp) id

/-! ### Late calls -/

/-- The desk starts the tone for its run when it has read that the sound timer counts, and if it stops the tone, that is
in tune. -/
theorem PhaseAt.of_call {c c' : Console} {q : Request} {a : Action} {next : a.Answer → Procedure Request.Answer}
    {σ : TonePhase} (h : PhaseAt late torn counted c q (.act a next) σ) {x : a.Answer} (hact : c.act a = some (x, c'))
    (hcalls : c'.tally.toneCalls ≠ c.tally.toneCalls) :
    a = .startTone ∧ counted ∧ c.desk.attached = true ∧ (c.Untimed → c.board.fault ≠ none) ∧
        (c'.InTune ↔ ¬ c.Untimed ∧ c.board.timers.sound ≠ 0) ∨
      a = .stopTone ∧ c'.InTune := by
  obtain ⟨σ', hafter, -⟩ := h.conforms x
  rcases (Console.footprint_of_act hact).tally with hsame | rfl | rfl
  · exact absurd (congrArg Tally.toneCalls hsame) hcalls
  · left
    cases hact
    cases TonePhase.sounding_of_startTone hafter
    refine ⟨rfl, h.counted rfl, h.holds.fits.1, fun huntimed hfault => ?_, iff_true_left rfl⟩
    obtain ⟨-, m, hlive, -⟩ := h.holds.fits.2 hfault
    exact huntimed m hlive
  · right
    cases hact
    refine ⟨rfl, iff_of_false Bool.false_ne_true fun hand => ?_⟩
    rcases TonePhase.of_stopTone hafter with rfl | rfl
    · exact hand.2 h.holds.fits.2.2
    · exact hand.1 h.holds.fits.2.2

theorem callsLate_desk (h : (o.run sc turns).InPhase late torn (LastLeft sc o (· = .desk) (· ≠ 0) turns))
    (hcalls : CallsTone sc o turns .desk) :
    CallsLate sc o turns .desk ↔ ¬ (o.run sc (turns ++ [.desk])).console.InTune := by
  have hrun : o.run sc (turns ++ [.desk]) = (o.run sc turns).work := run_append sc o turns [.desk]
  rw [CallsTone, hrun] at hcalls
  rw [hrun]
  unfold InPhase at h
  cases htask : (o.run sc turns).task with
  | none => exact absurd (by simp only [work, htask]) hcalls
  | some task =>
    obtain ⟨q, answer | ⟨a, next⟩⟩ := task
    · exact absurd (by simp only [work, htask]; rfl) hcalls
    rw [htask] at h
    obtain ⟨σ, hσ⟩ := h
    cases hact : (o.run sc turns).console.act a with
    | none => exact absurd (by simp only [work, htask, hact]) hcalls
    | some done =>
      obtain ⟨x, c⟩ := done
      have hworks : (o.run sc turns).work.console = c := by
        simp only [work, htask, hact]
        rfl
      rw [hworks] at hcalls ⊢
      rcases hσ.of_call hact hcalls with ⟨rfl, hcounted, hattached, hended, htune⟩ | ⟨rfl, htune⟩
      · have hstarts : (o.run sc turns).IsAt .startTone := ⟨q, next, htask⟩
        rw [htune, not_and_or, not_not, not_not]
        constructor
        · rintro (⟨-, -, hzero⟩ | ⟨-, -, -, huntimed⟩)
          · exact .inr hzero
          · exact .inl huntimed
        · rintro (huntimed | hzero)
          · exact .abandoned hstarts hattached (hended huntimed) huntimed
          · exact .overtaken hstarts hcounted hzero
      · have hstops {a : Action} (hat : (o.run sc turns).IsAt a) : a = .stopTone := by
          obtain ⟨q', next', htask'⟩ := hat
          rw [htask] at htask'
          cases htask'
          rfl
        refine iff_of_false ?_ (not_not.mpr htune)
        rintro (⟨hstarts, -, -⟩ | ⟨hstarts, -, -, -⟩) <;> cases hstops hstarts

/-- The timer clock stops the tone out of tune just if the sound timer was set again. -/
theorem callsLate_metronome {due : Bool}
    (hticked : (o.run sc turns).console.metronome = .live .silencing → LastLeft sc o Turn.IsMetronome (· = 0) turns)
    (hcalls : CallsTone sc o turns (.metronome due false)) :
    CallsLate sc o turns (.metronome due false) ↔
      ¬ (o.run sc (turns ++ [.metronome due false])).console.InTune := by
  have hrun : o.run sc (turns ++ [.metronome due false]) = (o.run sc turns).advance sc (.metronome due false) :=
    run_append sc o turns [.metronome due false]
  rw [CallsTone, hrun] at hcalls
  rw [hrun]
  cases hmetronome : (o.run sc turns).console.metronome with
  | live m =>
    have hmoves : ((o.run sc turns).advance sc (.metronome due false)).console =
        (o.run sc turns).console.metronomeMove { sc with silencingKills := false } due m := by
      simp only [Office.advance, hmetronome]
    rw [hmoves] at hcalls ⊢
    cases m with
    | looking =>
      have hsame : ((o.run sc turns).console.metronomeMove { sc with silencingKills := false } due .looking).tally =
          (o.run sc turns).console.tally := by
        simp only [Console.metronomeMove]
        split
        · rfl
        · rfl
        · split <;> rfl
      exact absurd (congrArg Tally.toneCalls hsame) hcalls
    | ticking => exact absurd rfl hcalls
    | silencing =>
      constructor
      · intro hlate htune
        cases hlate with
        | renewed hsilencing hticked hset =>
          exact Bool.false_ne_true (htune.mpr ⟨fun hnot => hnot .looking rfl, hset⟩)
      · intro hnot
        refine .renewed hmetronome (hticked hmetronome) fun hzero => hnot ?_
        exact iff_of_false Bool.false_ne_true fun hand => hand.2 hzero
    | leaving =>
      refine iff_of_false ?_ (not_not.mpr ?_)
      · intro hlate
        cases hlate with
        | renewed hsilencing =>
          rw [hmetronome] at hsilencing
          cases hsilencing
      · have huntimed : Console.Untimed
            ((o.run sc turns).console.metronomeMove { sc with silencingKills := false } due .leaving) :=
          fun m hlive => by cases hlive
        exact iff_of_false Bool.false_ne_true fun hand => hand.1 huntimed
  | _ => exact absurd (by simp only [Office.advance, hmetronome]) hcalls

/-- **A call about the tone** leaves it out of tune just if it comes late. -/
theorem callsLate_iff (hapart : sc.Only Happening.Apart)
    (h : (o.run sc turns).InPhase late torn (LastLeft sc o (· = .desk) (· ≠ 0) turns))
    (hticked : (o.run sc turns).console.metronome = .live .silencing → LastLeft sc o Turn.IsMetronome (· = 0) turns)
    (hturn : (o.run sc turns).PlainTurn t) (hcalls : CallsTone sc o turns t) :
    CallsLate sc o turns t ↔ ¬ (o.run sc (turns ++ [t])).console.InTune := by
  have hrun : o.run sc (turns ++ [t]) = (o.run sc turns).advance sc t := run_append sc o turns [t]
  cases t with
  | desk => exact callsLate_desk h hcalls
  | metronome due fatal =>
    cases (hturn : fatal = false)
    exact callsLate_metronome hticked hcalls
  | runner due =>
    rw [CallsTone, hrun] at hcalls
    simp only [Office.advance] at hcalls
    split at hcalls
    · next r hlive => exact absurd (Console.tone_runnerMove hapart hlive hturn due).1 hcalls
    · exact absurd rfl hcalls
  | call | refuse | file =>
    rw [CallsTone, hrun] at hcalls
    simp only [Office.advance, between] at hcalls
    split at hcalls <;> exact absurd rfl hcalls

theorem silencing_of_work (h : o.work.console.metronome = .live .silencing) :
    o.console.metronome = .live .silencing := by
  unfold work at h
  split at h
  · exact h
  · exact h
  · split at h
    · next x c hact =>
      rcases (Console.footprint_of_act hact).metronome with hsame | ⟨hnone, -⟩ | ⟨-, hmade⟩
      · exact hsame.symm.trans h
      · cases hnone.symm.trans h
      · cases hmade.symm.trans h
    · exact h

/-- The timer clock is about to stop the tone when its tick has taken the sound timer to zero. -/
theorem sound_of_silencing {c : Console} {m : Metronome} (hlive : c.metronome = .live m) {due : Bool}
    (h : (c.metronomeMove sc due m).metronome = .live .silencing) (hkills : sc.silencingKills = false) :
    (c.metronomeMove sc due m).board.timers.sound = 0 := by
  cases m with
  | looking =>
    have hother : ¬ c.metronome = .live .silencing := by
      rw [hlive]
      exact fun hsame => by cases hsame
    simp only [Console.metronomeMove] at h
    split at h
    · cases h
    · exact absurd h hother
    · split at h
      · cases h
      · exact absurd h hother
  | ticking =>
    by_cases hone : c.board.timers.sound = 1
    · simp [Console.metronomeMove, Board.tick, Timers.tick, hone, Timers.countDown]
    · simp [Console.metronomeMove, Board.tick, Timers.tick, hone] at h
  | silencing | leaving =>
    simp only [Console.metronomeMove, Console.silence, hkills] at h
    cases h

theorem ticked_advance (hapart : sc.Only Happening.Apart) (hturn : o.PlainTurn t)
    (h : (o.advance sc t).console.metronome = .live .silencing) :
    (t.IsMetronome → (o.advance sc t).console.board.timers.sound = 0) ∧
      (¬ t.IsMetronome → o.console.metronome = .live .silencing) := by
  cases t with
  | metronome due fatal =>
    refine ⟨fun _ => ?_, fun hnot => absurd trivial hnot⟩
    cases (hturn : fatal = false)
    simp only [Office.advance] at h ⊢
    split at h
    · next m hlive => exact sound_of_silencing hlive h rfl
    · next hgone => exact absurd h (hgone _)
  | runner due =>
    refine ⟨False.elim, fun _ => ?_⟩
    simp only [Office.advance] at h
    split at h
    · exact (Console.metronome_runnerMove hapart due _).symm.trans h
    · exact h
  | desk => exact ⟨False.elim, fun _ => silencing_of_work h⟩
  | call | refuse | file =>
    refine ⟨False.elim, fun _ => ?_⟩
    simp only [Office.advance, between] at h
    split at h <;> exact h

/-- **Any number of turns**. -/
theorem inPhase_run (s : Settings) (hapart : sc.Only Happening.Apart) (hkeeps : sc.Only Happening.KeepsMode)
    (hturns : PlainTurns sc (.new s) turns) :
    ((Office.new s).run sc turns).InPhase (LastToneCallLate sc (.new s) turns) (FaultTorn sc (.new s) turns)
        (LastLeft sc (.new s) (· = .desk) (· ≠ 0) turns) ∧
      (((Office.new s).run sc turns).console.metronome = .live .silencing →
        LastLeft sc (.new s) Turn.IsMetronome (· = 0) turns) := by
  induction turns using List.reverseRecOn with
  | nil =>
    have hnone {P Q : List Turn → Turn → Prop} : Turn.Latest P Q [] = False := eq_false Turn.not_latest_nil
    refine ⟨?_, nofun⟩
    rw [LastToneCallLate, FaultTorn, hnone, hnone]
    exact inPhase_new s
  | append_singleton turns t ih =>
    obtain ⟨hphase, hticked⟩ := ih hturns.init
    have hrun : (Office.new s).run sc (turns ++ [t]) = ((Office.new s).run sc turns).advance sc t :=
      run_append sc _ turns [t]
    have hlate : LastToneCallLate sc (.new s) (turns ++ [t]) =
        ((Office.new s).run sc turns).console.lateAfter (((Office.new s).run sc turns).advance sc t).console
          (LastToneCallLate sc (.new s) turns) := by
      rw [← hrun]
      by_cases hcalls : CallsTone sc (.new s) turns t
      · rw [Console.lateAfter, if_neg hcalls, LastToneCallLate, Turn.latest_snoc_of hcalls]
        exact propext (callsLate_iff hapart hphase hticked hturns.last hcalls)
      · rw [Console.lateAfter_of_same (not_not.mp hcalls), LastToneCallLate, Turn.latest_snoc_of_not hcalls]
        rfl
    constructor
    · rw [hlate, hrun]
      refine hphase.advance hapart hkeeps hturns.last (fun hnow hbefore => ?_) fun hnow hbefore => ?_
      · exact Turn.latest_snoc.mpr ⟨hnow, hbefore⟩
      · exact Turn.latest_snoc.mpr ⟨fun ht => hrun ▸ hnow ht, hbefore⟩
    · intro hsilencing
      rw [hrun] at hsilencing
      obtain ⟨hnow, hbefore⟩ := ticked_advance hapart hturns.last hsilencing
      exact Turn.latest_snoc.mpr ⟨fun ht => hrun ▸ hnow ht, fun ht => hticked (hbefore ht)⟩

/-- **When the tone follows the machine.**  In any history in which no FX18 is executed, whenever nobody waits and the
clocks are settled, the tone sounds just when a run is alive and the sound timer is not zero, unless one of two things
is so and not the other: the last call to start or to stop the tone has come late, or a fault has ended the run between
a look at the run state and its setting, and the timer clock counts on. -/
theorem tone_in_line_iff (s : Settings) (hapart : sc.Only Happening.Apart) (hkeeps : sc.Only Happening.KeepsMode)
    (hturns : PlainTurns sc (.new s) turns) :
    let o := (Office.new s).run sc turns
    o.task = none → o.console.Settled →
      ((o.console.tally.sounding = true ↔ o.console.Alive ∧ o.console.board.timers.sound ≠ 0) ↔
        (LastToneCallLate sc (.new s) turns ↔ TimerOutlivesRun sc (.new s) turns)) := by
  intro o hidle hsettled
  have h : o.InPhase _ _ _ := (inPhase_run s hapart hkeeps hturns).1
  unfold InPhase at h
  rw [hidle] at h
  exact h.in_line_iff hsettled

/-- A machine is put in place whose sound timer has one tick to go, and a run is begun.  That tick comes, and the timer
clock stops the tone, after the desk has read the sound timer and before it starts the tone. -/
def lastTick : List Turn :=
  .call (.restore { Machine.powerOn with sound := 1 }) :: .replicate 7 .desk ++
    .call .start :: .replicate 8 .desk ++ .replicate 3 (.metronome true false) ++ .replicate 4 .desk

theorem run_lastTick :
    PlainTurns alone (.new {}) lastTick ∧
      let o := (Office.new {}).run alone lastTick
      o.task.isNone = true ∧ o.console.metronome = .live .looking ∧ o.console.board.mode = .running ∧
        o.console.tally.sounding = true ∧ o.console.board.timers.sound = 0 := by
  constructor <;> decide +kernel

theorem settled_lastTick : ((Office.new {}).run alone lastTick).console.Settled := by
  obtain ⟨-, -, hmetronome, hmode, -⟩ := run_lastTick
  intro m hlive
  rw [hmetronome] at hlive
  cases hlive
  exact ⟨rfl, by rw [hmode]; nofun⟩

theorem tone_in_line_iff_lastTick :
    PlainTurns alone (.new {}) lastTick ∧ ((Office.new {}).run alone lastTick).task = none ∧
      ((Office.new {}).run alone lastTick).console.Settled ∧ LastToneCallLate alone (.new {}) lastTick := by
  obtain ⟨hturns, hnone, -, -, hsounding, hsound⟩ := run_lastTick
  have hidle := Option.isNone_iff_eq_none.mp hnone
  have hline := tone_in_line_iff {} (only_alone _) (only_alone _) hturns hidle settled_lastTick
  refine ⟨hturns, hidle, settled_lastTick, ?_⟩
  by_contra hlate
  have hlasts : ¬ TimerOutlivesRun alone (.new {}) lastTick := fun h => h.2.2.2 hsound
  exact (hline.mpr (iff_of_false hlate hlasts)).mp hsounding |>.2 hsound

/-- **A tone after the end**: nobody waits, the clocks are settled, the sound timer is zero, and the tone sounds. -/
theorem tone_after_end :
    PlainTurns alone (.new {}) lastTick ∧ ((Office.new {}).run alone lastTick).task = none ∧
      ((Office.new {}).run alone lastTick).console.Settled ∧
      ¬ (((Office.new {}).run alone lastTick).console.tally.sounding = true ↔
        ((Office.new {}).run alone lastTick).console.Alive ∧
          ((Office.new {}).run alone lastTick).console.board.timers.sound ≠ 0) := by
  obtain ⟨hturns, hnone, -, -, hsounding, hsound⟩ := run_lastTick
  exact ⟨hturns, Option.isNone_iff_eq_none.mp hnone, settled_lastTick, fun hline => (hline.mp hsounding).2 hsound⟩

end Office

end ChipEight
