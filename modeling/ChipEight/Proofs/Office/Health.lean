import ChipEight.Proofs.Office.Answers
import ChipEight.Proofs.WellFormed

/-!
# Well-formed machines on the console

A machine that is not well-formed can come to a console in one way: somebody gives it to `restore`.

* `Console.Healthy` : whatever may become part of the machine is well-formed.
* `Scene.grants_healthy` : the clocks keep it, and so do actions that put well-formed parts in place.
* `Office.Reachable.healthy` : in every history in which nobody restores anything else, the machine and all copies of it
  are well-formed.
-/

namespace ChipEight

/-- Whatever may become part of the machine is well-formed. -/
structure Console.Healthy (c : Console) : Prop where
  cells : ∀ k, c.board.screen.get k ≤ 1
  parked : c.desk.parked.sp ≤ 16
  live : ∀ r, c.runner = .live r → r.processor.sp ≤ 16
  ended : ∀ p, c.runner = .ended p → p.sp ≤ 16
  jobs : ∀ job ∈ c.mail.jobs, ∀ m, job.2 = .restore m → m.WellFormed

def Action.Sane : Action → Prop
  | .park p => p.sp ≤ 16
  | .post (.restore m) | .replaceParked m => m.WellFormed
  | _ => True

namespace Console.Healthy

variable {sc : Scenario} {c c' : Console} {es : List Event}

theorem machine (h : c.Healthy) : c.machine.WellFormed := by
  refine ⟨?_, h.cells⟩
  show c.processor.sp ≤ 16
  unfold Console.processor
  split
  · exact h.parked
  · next r hlive => exact h.live r hlive
  · next p hended => exact h.ended p hended
  · decide

theorem upcoming (h : c.Healthy) {r : Runner} (hlive : c.runner = .live r) :
    (c.upcoming sc r).2.toMachine.WellFormed :=
  Session.wellFormed_step sc.toSurroundings (s := c.session r.processor) ⟨h.live r hlive, h.cells⟩

theorem moves (h : c.Healthy) (hmoves : c.Moves sc c' es) : c'.Healthy := by
  cases hmoves with
  | @pass r hlive =>
    refine { h with live := ?_, ended := nofun }
    rintro _ ⟨⟩
    exact h.live r hlive
  | copy hlive hstage hjobs =>
    refine { h with jobs := fun job hjob => h.jobs job ?_ }
    rw [hjobs]
    exact List.mem_cons_of_mem _ hjob
  | @install r ticket m jobs hlive hstage hjobs =>
    have hm : m.WellFormed := h.jobs (ticket, .restore m) (hjobs ▸ List.mem_cons_self) m rfl
    refine ⟨hm.cell_le, h.parked, ?_, nofun, fun job hjob => h.jobs job ?_⟩
    · rintro _ ⟨⟩
      exact hm.sp_le
    · rw [hjobs]
      exact List.mem_cons_of_mem _ hjob
  | @step r hlive =>
    have hwell : (c.upcoming sc r).2.toMachine.WellFormed := h.upcoming hlive
    refine ⟨hwell.cell_le, h.parked, ?_, nofun, h.jobs⟩
    rintro _ ⟨⟩
    exact hwell.sp_le
  | @die r hlive =>
    have hwell : (c.upcoming sc r).2.toMachine.WellFormed := h.upcoming hlive
    exact ⟨hwell.cell_le, h.parked, nofun, nofun, nofun⟩
  | @fail r f hlive =>
    refine { h with live := ?_, ended := nofun }
    rintro _ ⟨⟩
    exact h.live r hlive
  | leave hlive =>
    refine { h with live := nofun, ended := ?_, jobs := nofun }
    rintro _ ⟨⟩
    exact h.live _ hlive
  | tick | hush => exact { h with }

theorem acts (h : c.Healthy) {a : Action} {x : a.Answer} (ha : a.Sane) (hact : c.act a = some (x, c')) :
    c'.Healthy := by
  have hpowerOn : Processor.powerOn.sp ≤ 16 := by decide
  cases a with
  | park p =>
    cases hact
    exact { h with parked := ha }
  | replaceParked m =>
    cases hact
    exact { h with cells := ha.cell_le, parked := ha.sp_le }
  | resetBoard =>
    cases hact
    exact { h with cells := Screen.get_blank_le }
  | post j =>
    rcases of_post hact with ⟨r, -, -, rfl⟩ | ⟨-, -, rfl⟩
    · refine { h with jobs := ?_ }
      intro job hjob m hm
      rcases List.mem_append.mp hjob with hold | hnew
      · exact h.jobs job hold m hm
      · obtain rfl := List.mem_singleton.mp hnew
        obtain rfl : j = .restore m := hm
        exact ha
    · exact h
  | spawnRunner =>
    rcases of_spawnRunner hact with ⟨-, -, rfl⟩ | ⟨-, -, rfl⟩
    · exact { h with parked := hpowerOn }
    · refine ⟨h.cells, hpowerOn, ?_, by rintro _ ⟨⟩, by rintro _ ⟨⟩⟩
      rintro _ ⟨⟩
      exact h.parked
  | spawnMetronome =>
    rcases of_spawnMetronome hact with ⟨-, -, rfl⟩ | ⟨-, -, rfl⟩ <;> exact { h with }
  | joinRunner =>
    rcases of_joinRunner hact with ⟨-, -, rfl⟩ | ⟨p, hended, -, rfl⟩ | ⟨-, -, rfl⟩
    · exact h
    · exact { h with parked := h.ended p hended, live := by rintro _ ⟨⟩, ended := by rintro _ ⟨⟩ }
    · exact { h with parked := hpowerOn, live := by rintro _ ⟨⟩, ended := by rintro _ ⟨⟩ }
  | joinMetronome =>
    obtain ⟨rfl, -⟩ := of_joinMetronome hact
    exact { h with }
  | collect ticket =>
    rcases of_collect hact with ⟨reply, -, -, rfl⟩ | ⟨-, -, rfl⟩ <;> exact { h with }
  | createFile =>
    rcases of_createFile hact with ⟨file, -, -, rfl⟩ | ⟨e, -, -, rfl⟩ <;> exact { h with }
  | appendFile bytes =>
    rcases of_appendFile hact with ⟨file, -, -, rfl⟩ | ⟨e, -, -, rfl⟩ <;> exact { h with }
  | _ =>
    cases hact
    exact { h with }

end Console.Healthy

/-- The console is healthy, and so were the machines that were copied. -/
def Scene.Healthy (s : Scene) : Prop := s.console.Healthy ∧ ∀ who m, .copied who m ∈ s.past → m.WellFormed

namespace Scene

variable {sc : Scenario}

/-- **Healthy consoles stay healthy** unless something ill-formed is put in place. -/
theorem grants_healthy (sc : Scenario) : Grants sc (fun _ _ => True) Action.Sane (fun _ => False) Scene.Healthy where
  moves {s c es} h hmoves := by
    refine .inr ⟨h.1.moves hmoves, ?_⟩
    intro who m hmem
    rcases List.mem_append.mp hmem with hold | hnew
    · exact h.2 who m hold
    · cases hmoves with
      | copy hlive =>
        cases List.mem_singleton.mp hnew
        exact ⟨h.1.live _ hlive, h.1.cells⟩
      | _ => simp at hnew
  acts {s a x c} h ha hact := by
    refine ⟨trivial, h.1.acts ha hact, ?_⟩
    intro who m hmem
    rcases List.mem_append.mp hmem with hold | hnew
    · exact h.2 who m hold
    · cases a with
      | captureParked =>
        cases List.mem_singleton.mp hnew
        cases hact
        exact ⟨h.1.parked, h.1.cells⟩
      | spawnRunner | spawnMetronome => cases x <;> simp [Action.events] at hnew
      | note n => cases n <;> simp [Action.events] at hnew
      | _ => simp [Action.events] at hnew

theorem lasts_healthy : Lasts Scene.Healthy where
  called h := ⟨h.1, fun who m hmem => h.2 who m (by simpa [Scene.add] using hmem)⟩
  answered h := ⟨h.1, fun who m hmem => h.2 who m (by simpa [Scene.add] using hmem)⟩
  refused h := ⟨{ h.1 with }, h.2⟩
  filed h := ⟨{ h.1 with }, h.2⟩

end Scene

/-- A request puts well-formed parts in place, unless it brings an ill-formed machine itself. -/
theorem Request.sane {q : Request} (hq : ∀ m, q = .restore m → m.WellFormed) :
    q.order.run.Within (fun _ _ => True) Action.Sane fun _ => True := by
  refine (Order.request_within (fun _ _ => True) q).mono (fun _ _ h => h) ?_ fun _ _ => trivial
  intro a ha
  have hmachine (m : Machine) (h : q.bounds.machines m) : m.WellFormed := h.elim (hq m) fun h => h.2
  cases a with
  | park p =>
    obtain ⟨program, -, hp⟩ := ha
    show p.sp ≤ 16
    rw [Processor.sp_of_withProgram? hp]
    decide
  | post j =>
    cases j with
    | capture => trivial
    | restore m => exact hmachine m ha.2
  | replaceParked m => exact hmachine m ha
  | _ => trivial

namespace Office

variable {sc : Scenario} {o : Office}

/-- Nobody has asked for a restore of an ill-formed machine. -/
def Given (past : List Event) : Prop := ∀ m, .called (.restore m) ∈ past → m.WellFormed

theorem healthy_run (hsc : sc.Only Happening.Apart) (h : o.Kept (fun _ _ => True) Action.Sane Scene.Healthy)
    {turns : List Turn} (hgiven : Given (o.run sc turns).past) :
    (o.run sc turns).Kept (fun _ _ => True) Action.Sane Scene.Healthy := by
  induction turns generalizing o with
  | nil => exact h
  | cons t turns ih =>
    refine ih (h.advance hsc (Scene.grants_healthy sc) Scene.lasts_healthy ?_) hgiven
    rintro q rfl hidle
    apply Request.sane
    rintro m rfl
    apply hgiven m
    obtain ⟨es, hes⟩ := past_run sc (o.advance sc (.call (.restore m))) turns
    rw [run_cons, hes, advance_call sc hidle]
    simp [busy, Scene.add]

theorem healthy_new (s : Settings) : (Office.new s).Healthy := by
  have hpowerOn : Processor.powerOn.sp ≤ 16 := by decide
  refine ⟨⟨Screen.get_blank_le, hpowerOn, nofun, nofun, nofun⟩, ?_⟩
  intro who m hmem
  cases hmem

/-- **Every history** in which nobody restores an ill-formed machine. -/
theorem Reachable.healthy (h : o.Reachable) (hgiven : Given o.past) :
    o.Kept (fun _ _ => True) Action.Sane Scene.Healthy := by
  induction h with
  | new s => exact ⟨healthy_new s, nofun⟩
  | @run o sc h hidle hsc turns ih =>
    refine healthy_run hsc (ih ?_) hgiven
    intro m hmem
    obtain ⟨es, hes⟩ := past_run sc o turns
    exact hgiven m (hes ▸ List.mem_append_left es hmem)

end Office

end ChipEight
