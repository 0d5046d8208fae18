import ChipEight.Proofs.Office.TonePhases

/-!
# Every order goes from phase to phase

Whatever the actions of a method of `Machine` answer, they lead from phase to phase, and when it comes to an end nothing
is left to be done for the tone.

* `Order.settleTone_conforms`, `Order.endRun_conforms` and the like : the parts that orders are made of.
* `Order.start_rests`, `Order.restore_rests` and the like : the orders, from a settled tone to a settled tone.
* `Order.request_rests` : all requests.
-/

namespace ChipEight

/-- Nothing is left to be done for the tone. -/
def TonePhase.AtRest (σ : TonePhase) : Prop := σ = .settled ∨ σ = .vacant

theorem TonePhase.AtRest.lasting {σ : TonePhase} (h : σ.AtRest) : σ.Lasting := by
  rcases h with rfl | rfl <;> trivial

/-! ### The orders -/

namespace Order

open Procedure (single Conforms)

variable {α β : Type} {T : Prop} {σ : TonePhase}

/-- From this phase on the order goes from phase to phase, and whatever it answers it ends at rest. -/
abbrev Rests (T : Prop) (p : Op α) (σ : TonePhase) : Prop := p.run.Conforms T (fun _ σ => σ.AtRest) σ

theorem settleTone_conforms (hσ : σ = .owing ∨ σ = .vacant) : settleTone.Conforms T (fun _ σ => σ.AtRest) σ := by
  have hsettles : Conforms T (fun _ σ => σ.AtRest)
      (single .readSound >>= fun sound => if 0 < sound then single .startTone else single .stopTone) .owing := by
    intro (sound : UInt8)
    by_cases hcounts : 0 < sound
    · refine ⟨_, .counts hcounts, ?_⟩
      show (if 0 < sound then single .startTone else single .stopTone).Conforms T _ _
      rw [if_pos hcounts]
      exact fun _ => ⟨_, .starts, .inl rfl⟩
    · refine ⟨_, .isOver hcounts, ?_⟩
      show (if 0 < sound then single .startTone else single .stopTone).Conforms T _ _
      rw [if_neg hcounts]
      exact fun _ => ⟨_, .hushes, .inl rfl⟩
  rcases hσ with rfl | rfl
  · rintro (_ | _)
    · exact ⟨_, .hasNone, fun _ => ⟨_, .hushes, .inl rfl⟩⟩
    · exact ⟨_, .spares trivial trivial, hsettles⟩
  · rintro (_ | _)
    · exact ⟨_, .spares trivial trivial, fun _ => ⟨_, .silences, .inr rfl⟩⟩
    · exact ⟨_, .hasRun, hsettles⟩

theorem closeRun_conforms (whole : Bool) : (closeRun whole).run.Conforms T (fun _ σ => σ = .vacant) .vacant := by
  have hnote : Conforms T (fun _ σ => σ = .vacant)
      (.act (.note .stopped) fun _ => .done (.ok () : Except DeskError Unit)) .vacant :=
    .spares trivial trivial fun _ => rfl
  cases whole with
  | false => exact .spares trivial trivial fun _ => rfl
  | true =>
    refine .spares trivial trivial ?_
    rintro (_ | f)
    · exact hnote
    · exact .spares trivial trivial fun _ => hnote

theorem endRun_conforms : endRun.run.Conforms T (fun _ σ => σ = .vacant) .settled := by
  refine fun _ => ⟨_, .stops, ?_⟩
  rintro (_ | _)
  · exact ⟨_, .findsNoneLeft, rfl⟩
  refine ⟨.stopping, .spares trivial trivial, fun _ => ⟨_, .letsGo, fun whole => ⟨_, .joinsRunner, ?_⟩⟩⟩
  rintro (_ | _)
  · exact ⟨_, .joinsMetronome, .spares trivial trivial fun _ => closeRun_conforms whole⟩
  · exact ⟨_, .joinsMetronome, closeRun_conforms whole⟩

theorem alone_conforms {o : Op β} {R : Except DeskError β → TonePhase → Prop} (ho : o.run.Conforms T R .vacant)
    (herror : ∀ e, R (.error e) .vacant) :
    (do if ← single .isAttached then endRun
        o : Op β).run.Conforms T R .settled := by
  rintro (_ | _)
  · exact ⟨_, .findsNone, ho⟩
  · refine ⟨.settled, .spares trivial trivial, .andThen endRun_conforms ?_ ?_⟩
    · rintro _ _ rfl
      exact ho
    · rintro e _ rfl
      exact herror e

/-- The second clock is made, or the run that has begun is given up. -/
theorem accompany_rests : Rests T accompany .crewed := by
  rintro (_ | _)
  · refine ⟨_, .lacksMetronome, fun _ => ⟨_, .givesUp, fun whole => ⟨_, .joinsAgain, ?_⟩⟩⟩
    exact .inr rfl
  · refine ⟨_, .spawnsMetronome, fun _ => ⟨_, .attaches, ?_⟩⟩
    refine .lift (settleTone_conforms (.inl rfl)) fun _ σ h => ?_
    exact .spares h.lasting trivial fun _ => .spares h.lasting trivial fun _ => h

theorem takeUp_rests : Rests T takeUp .vacant := by
  refine fun _ => ⟨_, .clears, fun _ => ⟨_, .begins (by decide), ?_⟩⟩
  rintro (_ | _)
  · exact ⟨_, .lacksRunner, fun _ => ⟨_, .calledOff, .inr rfl⟩⟩
  · exact ⟨_, .spawnsRunner, accompany_rests⟩

theorem start_rests : Rests T start .settled := by
  rintro (_ | _)
  · exact ⟨_, .findsNone, takeUp_rests⟩
  refine ⟨.settled, .spares trivial trivial, .spares trivial trivial ?_⟩
  rintro (_ | _ | _)
  · refine .andThen endRun_conforms ?_ ?_
    · rintro _ _ rfl
      exact takeUp_rests
    · rintro _ _ rfl
      exact .inr rfl
  · exact .inl rfl
  · exact .inl rfl

theorem install_rests (program : List UInt8) (p : Processor) : Rests T (install program p) .vacant := by
  refine .spares trivial trivial fun _ _ => ⟨_, .empties, .spares trivial trivial fun _ => ?_⟩
  exact .noRun start_rests fun _ _ => .inr rfl

theorem tellAndInstall_rests (program : List UInt8) (p : Processor) : Rests T (tellAndInstall program p) .vacant := by
  refine .spares trivial trivial ?_
  rintro (_ | f)
  · exact install_rests program p
  · exact .spares trivial trivial fun _ => install_rests program p

theorem reset_rests (program : List UInt8) : Rests T (reset program) .settled := by
  unfold reset
  cases Processor.withProgram? program with
  | none => exact .inl rfl
  | some p =>
    refine .lift (p := endRun.run) endRun_conforms ?_
    rintro (e | _) _ rfl
    · exact .spares trivial trivial fun _ => tellAndInstall_rests program p
    · exact tellAndInstall_rests program p

theorem stop_rests : Rests T stop .settled := by
  refine .andThen endRun_conforms ?_ ?_
  · rintro _ _ rfl
    refine .spares trivial trivial ?_
    rintro (_ | f)
    · exact .inr rfl
    · exact .inr rfl
  · rintro _ _ rfl
    exact .inr rfl

theorem pause_conforms (hT : T) : pause.Conforms T (fun _ σ => σ.AtRest) .settled := by
  rintro (_ | _ | _)
  · exact ⟨_, .spares trivial trivial, .inl rfl⟩
  · exact ⟨_, .looks hT nofun, fun _ => ⟨_, .toggles nofun, .spares trivial trivial fun _ => .inl rfl⟩⟩
  · exact ⟨_, .spares trivial trivial, .inl rfl⟩

theorem resume_conforms (hT : T) : resume.Conforms T (fun _ σ => σ.AtRest) .settled := by
  rintro (_ | _ | _)
  · exact ⟨_, .spares trivial trivial, .inl rfl⟩
  · exact ⟨_, .spares trivial trivial, .inl rfl⟩
  · exact ⟨_, .looks hT nofun, fun _ => ⟨_, .toggles nofun, .spares trivial trivial fun _ => .inl rfl⟩⟩

theorem setRate_conforms (hz : UInt32) : (setRate hz).Conforms T (fun _ σ => σ.AtRest) .settled :=
  .spares trivial trivial fun _ => .spares trivial trivial fun _ => .spares trivial trivial fun _ => .inl rfl

/-! ### Copies -/

theorem ask_conforms (j : Job) : (ask j).Conforms T (fun reply σ => σ = j.phaseAfter reply) .settled := by
  have hnone : TonePhase.settled = j.phaseAfter none := by cases j <;> rfl
  refine .spares trivial trivial ?_
  rintro (_ | _)
  · exact hnone
  rintro (_ | ticket)
  · exact ⟨_, .findsNobody, hnone⟩
  · exact ⟨_, .posts, fun reply => ⟨_, .collects rfl, rfl⟩⟩

theorem capture_rests : Rests T capture .settled := by
  have halone : (do
      if ← single .isAttached then endRun
      single .captureParked : Op Machine).run.Conforms T (fun _ σ => σ.AtRest) .settled :=
    alone_conforms (.spares trivial trivial fun _ => .inr rfl) fun _ => .inr rfl
  refine .lift (ask_conforms .capture) ?_
  rintro (_ | ⟨m⟩ | _) _ rfl
  · exact halone
  · exact .inl rfl
  · exact halone

theorem restore_rests (m : Machine) : Rests T (restore m) .settled := by
  have halone : (do
      if ← single .isAttached then endRun
      single (.replaceParked m)
      settleTone : Op Unit).run.Conforms T (fun _ σ => σ.AtRest) .settled := by
    refine alone_conforms (fun _ => ⟨_, .replaces, ?_⟩) fun _ => .inr rfl
    exact .lifted (settleTone_conforms (.inr rfl)) fun _ _ h => h
  have hask : (restoreHeld m).run.Conforms T (fun _ σ => σ.AtRest) .settled := by
    refine .lift (ask_conforms (.restore m)) ?_
    rintro (_ | ⟨m'⟩ | _) _ rfl
    · exact halone
    · exact halone
    · exact .lift (settleTone_conforms (.inl rfl)) fun _ _ h => h
  refine .spares trivial trivial ?_
  rintro (_ | _ | _)
  · exact hask
  · exact .inl rfl
  · exact hask

/-! ### The state file -/

theorem single_conforms {a : Action} (ha : a.SparesTone) (h : σ.AtRest) :
    (single a).Conforms T (fun _ σ' => σ' = σ) σ := .spares h.lasting ha fun _ => rfl

theorem orSystemError_rests {p : Procedure (Except SystemError α)} {f : α → Op β} (h : σ.AtRest)
    (hp : p.Conforms T (fun _ σ' => σ' = σ) σ) (hf : ∀ x, Rests T (f x) σ) : Rests T (orSystemError p >>= f) σ := by
  have hanswer : (orSystemError p).run.Conforms T (fun _ σ' => σ' = σ) σ := by
    refine .lift hp fun answer σ' hσ => ?_
    cases answer with
    | ok x => exact hσ
    | error e => exact hσ
  refine .andThen hanswer ?_ ?_
  · rintro x _ rfl
    exact hf x
  · rintro e _ rfl
    exact h

theorem writeDown_rests (m : Machine) (h : σ.AtRest) : Rests T (writeDown m) σ := by
  refine orSystemError_rests h (single_conforms (a := .createFile) trivial h) fun _ => ?_
  refine orSystemError_rests h (single_conforms (a := .appendFile _) trivial h) fun _ => ?_
  exact .spares h.lasting trivial fun _ => .spares h.lasting trivial fun _ => h

theorem save_rests : Rests T save .settled :=
  .andThen capture_rests (fun m _ h => writeDown_rests m h) fun _ _ h => h

theorem unpack_rests (bytes : List UInt8) : Rests T (unpack bytes) .settled := by
  unfold unpack
  cases Image.decode bytes with
  | error d => exact .inl rfl
  | ok m =>
    refine .andThen (restore_rests m) (fun _ σ h => ?_) fun _ _ h => h
    exact .spares h.lasting trivial fun _ => .spares h.lasting trivial fun _ => h

theorem load_rests : Rests T load .settled := by
  have hread : Rests T (do
      let bytes ← orSystemError (single .readFile)
      unpack bytes : Op Unit) .settled :=
    orSystemError_rests (.inl rfl) (single_conforms (a := .readFile) trivial (.inl rfl)) unpack_rests
  refine .spares trivial trivial ?_
  rintro (_ | _ | _)
  · exact hread
  · exact .inl rfl
  · exact hread

/-- **Every request** leaves nothing to be done for the tone. -/
theorem request_rests (q : Request) : Rests q.Toggles q.order .settled := by
  have hnone {p : Op Unit} (hp : Rests q.Toggles p .settled) :
      Rests q.Toggles (do p; return none : Op (Option Machine)) .settled :=
    .andThen hp (fun _ _ h => h) fun _ _ h => h
  have hlift {p : Procedure Unit} (hp : p.Conforms q.Toggles (fun _ σ => σ.AtRest) .settled) :
      Rests q.Toggles (do p; return none : Op (Option Machine)) .settled :=
    .lift hp fun _ _ h => h
  cases q with
  | reset program => exact hnone (reset_rests program)
  | start => exact hnone start_rests
  | stop => exact hnone stop_rests
  | pause => exact hlift (pause_conforms (.inl rfl))
  | resume => exact hlift (resume_conforms (.inr rfl))
  | capture => exact .andThen capture_rests (fun _ _ h => h) fun _ _ h => h
  | restore m => exact hnone (restore_rests m)
  | save => exact hnone save_rests
  | load => exact hnone load_rests
  | setRate hz => exact hlift (setRate_conforms hz)

end Order

end ChipEight
