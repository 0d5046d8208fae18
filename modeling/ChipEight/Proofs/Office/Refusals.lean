import ChipEight.Proofs.Office.Answers

/-!
# Requests that are refused

Whatever `reset`, `restore`, `load_state` or `save_state` look at before they refuse, nothing is done: the console is
left to the clocks, and everything goes on as though nobody had come.

* `clockTurns` : what happens without the desk.
* `Office.Shadows` : all that the desk has done for a request is to look.
* `Office.Refuses` : a request is refused, and nothing has come of it.
* `Office.refused` : which requests are refused, and when.
-/

namespace ChipEight

def clockTurns (turns : List Turn) : List Turn := turns.filter Turn.isClock

theorem clockTurns_append (turns turns' : List Turn) :
    clockTurns (turns ++ turns') = clockTurns turns ++ clockTurns turns' := List.filter_append turns turns'

namespace Scene

/-- A turn of a clock, whatever the past is. -/
theorem clocked_past (sc : Scenario) (c : Console) (t : Turn) :
    ∃ c' es, ∀ past, Scene.clocked sc ⟨c, past⟩ t = ⟨c', past ++ es⟩ := by
  have hstays : ∃ c' es, ∀ past : List Event, (⟨c, past⟩ : Scene) = ⟨c', past ++ es⟩ :=
    ⟨c, [], fun past => by rw [List.append_nil]⟩
  cases t with
  | runner due =>
    simp only [clocked]
    cases c.runner with
    | live r => exact ⟨_, _, fun past => rfl⟩
    | none | ended | died => exact hstays
  | metronome due fatal =>
    simp only [clocked]
    cases c.metronome with
    | live m => exact ⟨_, _, fun past => rfl⟩
    | none | ended | died => exact hstays
  | desk | call | refuse | file => exact hstays

end Scene

namespace Office

/-- The desk is at the procedure `p` for the request `q` in `w`.  Nobody has come in `v`, where otherwise the same has
happened since the past was `base`. -/
def Shadows (q : Request) (base : List Event) (v w : Office) (p : Procedure Request.Answer) : Prop :=
  v.task = none ∧ ∃ es, v.past = base ++ es ∧ w = busy ⟨v.console, base ++ .called q :: es⟩ q p

/-- After these turns the desk is about to refuse the request, and nothing has come of it: whatever happens later, the
console is the one that the clocks alone have left, and the same is remembered of it. -/
structure Refuses (sc : Scenario) (o : Office) (q : Request) (turns : List Turn) (e : DeskError) : Prop where
  shadows : Shadows q o.past (o.run sc (clockTurns turns)) ((o.advance sc (.call q)).run sc turns) (.done (.error e))
  goes_on : ∀ later,
    let left := (o.run sc (clockTurns turns)).run sc later
    let refused := (o.advance sc (.call q)).run sc (turns ++ .desk :: later)
    refused.console = left.console ∧ refused.task = left.task ∧
      ∃ es es', left.past = o.past ++ es ++ es' ∧
        refused.past = o.past ++ .called q :: es ++ .answered q (.error e) :: es'

section

variable {sc : Scenario} {o v w : Office} {q : Request} {base : List Event} {p : Procedure Request.Answer}

theorem shadows_call (sc : Scenario) (hidle : o.task = none) (q : Request) :
    Shadows q o.past o (o.advance sc (.call q)) q.order.run := by
  refine ⟨hidle, [], (List.append_nil _).symm, ?_⟩
  rw [advance_call sc hidle]
  rfl

theorem Shadows.wait (sc : Scenario) (h : Shadows q base v w p) {turns : List Turn} (hturns : .desk ∉ turns) :
    Shadows q base (v.run sc (clockTurns turns)) (w.run sc turns) p := by
  induction turns generalizing v w with
  | nil => exact h
  | cons t turns ih =>
    obtain ⟨hidle, es, hpast, rfl⟩ := h
    have hdesk : t ≠ .desk := fun ht => hturns (ht ▸ List.mem_cons_self)
    have hrest : Turn.desk ∉ turns := fun hmem => hturns (List.mem_cons_of_mem t hmem)
    rw [run_cons, advance_of_ne_desk sc _ q p hdesk]
    obtain ⟨s, task⟩ := v
    obtain ⟨c, past⟩ := s
    cases hidle
    obtain rfl : past = base ++ es := hpast
    obtain ⟨c', new, hclocked⟩ := Scene.clocked_past sc c t
    have hnext : Shadows q base { toScene := Scene.clocked sc ⟨c, base ++ es⟩ t }
        (busy (Scene.clocked sc ⟨c, base ++ .called q :: es⟩ t) q p) p := by
      rw [hclocked, hclocked]
      refine ⟨rfl, es ++ new, List.append_assoc .., ?_⟩
      rw [List.append_assoc, List.cons_append]
    by_cases hclock : t.isClock = true
    · rw [clockTurns, List.filter_cons_of_pos hclock, run_cons, advance_clock sc hclock]
      exact ih hnext hrest
    · rw [clockTurns, List.filter_cons_of_neg hclock]
      have hstays (s : Scene) : s.clocked sc t = s := by
        cases t with
        | runner | metronome => exact absurd rfl hclock
        | desk | call | refuse | file => rfl
      rw [hstays, hstays] at hnext
      rw [hstays]
      exact ih hnext hrest

theorem Shadows.look (sc : Scenario) {a : Action} {next : a.Answer → Procedure Request.Answer} {x : a.Answer}
    (h : Shadows q base v w (.act a next)) (hact : v.console.act a = some (x, v.console)) (hevents : a.events x = []) :
    Shadows q base v (w.advance sc .desk) (next x) := by
  obtain ⟨hidle, es, hpast, rfl⟩ := h
  refine ⟨hidle, es, hpast, ?_⟩
  have hlook := advance_act sc (s := ⟨v.console, base ++ .called q :: es⟩) hact q next
  rwa [Scene.did_of_quiet hevents] at hlook

theorem Shadows.looks (sc : Scenario) {a : Action} {next : a.Answer → Procedure Request.Answer} {x : a.Answer}
    {turns : List Turn} (h : Shadows q base v w (.act a next)) (hact : v.console.act a = some (x, v.console))
    (hevents : a.events x = []) (hturns : .desk ∉ turns) :
    Shadows q base (v.run sc (clockTurns turns)) (w.run sc (.desk :: turns)) (next x) :=
  (h.look sc hact hevents).wait sc hturns

/-- When the error is at hand, everything goes on as it would have gone on. -/
theorem refuses_of_shadows {turns : List Turn} {e : DeskError}
    (h : Shadows q o.past (o.run sc (clockTurns turns)) ((o.advance sc (.call q)).run sc turns) (.done (.error e))) :
    o.Refuses sc q turns e where
  shadows := h
  goes_on later := by
    obtain ⟨hidle, es, hpast, hbusy⟩ := h
    obtain ⟨es', hlater⟩ := run_past sc (o.run sc (clockTurns turns)) later
    have hleft := hlater (o.run sc (clockTurns turns)).past
    have hrefused : (o.advance sc (.call q)).run sc (turns ++ .desk :: later) =
        { (o.run sc (clockTurns turns)).run sc later with
          past := o.past ++ .called q :: es ++ [.answered q (.error e)] ++ es' } := by
      rw [run_append, hbusy, run_cons, ← hlater]
      simp only [advance, work, busy, Scene.add, hidle]
    refine ⟨?_, ?_, es, es', ?_, ?_⟩
    · rw [hrefused]
    · rw [hrefused]
    · rw [← hpast]
      exact congrArg (fun o : Office => o.past) hleft
    · rw [hrefused]
      simp only [List.append_assoc, List.singleton_append]

theorem file_run_clockTurns (hsc : sc.Only Happening.Apart) (hidle : o.task = none) (turns : List Turn) :
    (o.run sc (clockTurns turns)).console.file = o.console.file := by
  induction turns generalizing o with
  | nil => rfl
  | cons t turns ih =>
    by_cases hclock : t.isClock = true
    · obtain ⟨s, task⟩ := o
      cases hidle
      rw [clockTurns, List.filter_cons_of_pos hclock, run_cons, advance_clock sc hclock]
      exact (ih rfl).trans (Scene.file_clocked hsc s t)
    · rw [clockTurns, List.filter_cons_of_neg hclock]
      exact ih hidle

end

/-! ### The refusals -/

section

variable {sc : Scenario} {o : Office} {q : Request}

theorem refuses_tooLarge (sc : Scenario) (hidle : o.task = none) {program : List UInt8}
    (hlarge : Memory.programRoom < program.length) {wait : List Turn} (hwait : .desk ∉ wait) :
    o.Refuses sc (.reset program) wait (.romTooLarge program.length Memory.programRoom) := by
  have hnone : Processor.withProgram? program = none := if_neg (Nat.not_le_of_lt hlarge)
  have horder : (Request.reset program).order.run =
      .done (.error (.romTooLarge program.length Memory.programRoom)) := by
    show (do Order.reset program; return none : Order.Op (Option Machine)).run = _
    unfold Order.reset
    rw [hnone]
    rfl
  have hcall := shadows_call sc hidle (.reset program)
  rw [horder] at hcall
  exact refuses_of_shadows (hcall.wait sc hwait)

theorem first_look (hq : ∃ m, q.Replaces m) :
    ∃ next, q.order.run = .act .readMode next ∧ next .running = .done (.error .busy) := by
  obtain ⟨m, rfl | rfl⟩ := hq
  · exact ⟨_, rfl, rfl⟩
  · exact ⟨_, rfl, rfl⟩

theorem refuses_busy (hidle : o.task = none) (hq : ∃ m, q.Replaces m) {wait rest : List Turn}
    (hwait : .desk ∉ wait) (hrest : .desk ∉ rest)
    (hmode : (o.run sc (clockTurns wait)).console.board.mode = .running) :
    o.Refuses sc q (wait ++ .desk :: rest) .busy := by
  obtain ⟨next, horder, hbusy⟩ := first_look hq
  have hcall := shadows_call sc hidle q
  rw [horder] at hcall
  have hlook := (hcall.wait sc hwait).looks sc rfl rfl hrest
  rw [hmode, hbusy, ← run_append, ← run_append] at hlook
  apply refuses_of_shadows
  rwa [clockTurns_append]

/-- When it is not running, the state file is looked at. -/
theorem second_look :
    ∃ next, Request.load.order.run = .act .readMode next ∧ ∀ mode, mode ≠ .running →
      ∃ next', next mode = .act .readFile next' ∧
        (∀ e, next' (.error e) = .done (.error (.system e))) ∧
        ∀ bytes d, Image.decode bytes = .error d → next' (.ok bytes) = .done (.error (.invalidImage d)) := by
  refine ⟨_, rfl, fun mode hmode => ?_⟩
  cases mode with
  | running => exact absurd rfl hmode
  | stopped | paused =>
    refine ⟨_, rfl, fun e => rfl, fun bytes d hdecode => ?_⟩
    show (do Order.unpack bytes; return none : Order.Op (Option Machine)).run = _
    unfold Order.unpack
    rw [hdecode]
    rfl

/-- Nothing is done with a file that cannot be read or that is no image. -/
theorem refuses_load (hsc : sc.Only Happening.Apart) (hidle : o.task = none) {wait look rest : List Turn}
    (hwait : .desk ∉ wait) (hlook : .desk ∉ look) (hrest : .desk ∉ rest)
    (hmode : (o.run sc (clockTurns wait)).console.board.mode ≠ .running) {e : DeskError}
    (hfile : (∃ e', o.console.file.read = .error e' ∧ e = .system e') ∨
      ∃ bytes d, o.console.file.read = .ok bytes ∧ Image.decode bytes = .error d ∧ e = .invalidImage d) :
    o.Refuses sc .load (wait ++ .desk :: look ++ .desk :: rest) e := by
  obtain ⟨next, horder, hnext⟩ := second_look
  obtain ⟨next', hreads, hunread, hundecoded⟩ := hnext _ hmode
  have hcall := shadows_call sc hidle .load
  rw [horder] at hcall
  have hfirst := (hcall.wait sc hwait).looks sc rfl rfl hlook
  rw [hreads, ← run_append, ← run_append, ← clockTurns_append] at hfirst
  have hsecond := hfirst.looks sc rfl rfl hrest
  have hend : next' (o.run sc (clockTurns (wait ++ look))).console.file.read = .done (.error e) := by
    rw [file_run_clockTurns hsc hidle]
    rcases hfile with ⟨e', hread, rfl⟩ | ⟨bytes, d, hread, hdecode, rfl⟩
    · rw [hread]
      exact hunread e'
    · rw [hread]
      exact hundecoded bytes d hdecode
  rw [hend, ← run_append, ← run_append, ← clockTurns_append] at hsecond
  apply refuses_of_shadows
  have hclocks : clockTurns (wait ++ .desk :: look ++ .desk :: rest) = clockTurns (wait ++ look ++ rest) := by
    simp [clockTurns, Turn.isClock]
  rwa [hclocks]

/-- After a look at a run state that is not `running`, no request is refused for being busy. -/
theorem ne_busy (hapart : sc.Only Happening.Apart) (hkeeps : sc.Only Happening.KeepsMode) (hidle : o.task = none)
    (hq : ∃ m, q.Replaces m) {wait rest : List Turn} (hwait : .desk ∉ wait)
    (hmode : (o.run sc (clockTurns wait)).console.board.mode ≠ .running) {answer : Request.Answer}
    (hanswers : o.Answers sc q (wait ++ .desk :: rest) answer) : answer ≠ .error .busy := by
  have hsets : ¬ q.bounds.modes .running := by
    obtain ⟨m, rfl | rfl⟩ := hq
    · exact id
    · exact id
  obtain ⟨next, horder, -⟩ := first_look hq
  have hwithin := Order.request_within Action.Held q
  have hcall := shadows_call sc hidle q
  rw [horder] at hwithin hcall
  obtain ⟨-, es, -, hlook⟩ := (hcall.wait sc hwait).look sc rfl rfl
  obtain ⟨s, hrun, hasks⟩ := hanswers
  rw [run_append, run_cons, hlook] at hrun
  have hasks₀ : q.Asks o.past (o.past ++ .called q :: es) := by
    obtain ⟨es', hpast⟩ := past_run sc (busy ⟨_, o.past ++ .called q :: es⟩ q (next _)) rest
    rw [hrun] at hpast
    have hpast : s.past = o.past ++ .called q :: es ++ es' := hpast
    exact asks_of_append (hpast ▸ hasks)
  have hwithin := within_of_asks (s := ⟨_, o.past ++ .called q :: es⟩) hapart
    (Scene.grants_held hkeeps hsets) (hwithin.2 _ hmode) hmode hasks₀ hrun hasks
  obtain ⟨hblames, -⟩ := hwithin.resolve_left Scene.not_eventSince
  rintro rfl
  cases hblames .busy rfl with
  | busy hq hbusy => exact hbusy rfl

/-- A program that fits is not refused for its length. -/
theorem ne_tooLarge (hapart : sc.Only Happening.Apart) (hidle : o.task = none) {program : List UInt8}
    (hfits : program.length ≤ Memory.programRoom) {turns : List Turn} {answer : Request.Answer}
    (hanswers : o.Answers sc (.reset program) turns answer) (n max : Nat) :
    answer ≠ .error (.romTooLarge n max) := by
  have hgrants (F : Action → Prop) : Scene.Grants sc (fun _ _ => True) F (fun _ => False) fun _ => True :=
    ⟨fun _ _ => .inr trivial, fun _ _ _ => ⟨trivial, trivial⟩⟩
  obtain ⟨s, hrun, hasks⟩ := hanswers
  rw [advance_call sc hidle] at hrun
  have hcalled : (Request.reset program).Asks o.past (o.add (.called (.reset program))).past := ⟨[], rfl, nofun⟩
  have hwithin :=
    within_of_asks hapart (hgrants _) (Order.request_within (fun _ _ => True) _) trivial hcalled hrun hasks
  obtain ⟨hblames, -⟩ := hwithin.resolve_left Scene.not_eventSince
  rintro rfl
  cases hblames _ rfl with
  | tooLarge hlarge => exact absurd hlarge (Nat.not_lt_of_le hfits)

end

/-- **A request that is refused changes nothing.**  The desk of any office is at no request, somebody comes, and the
desk does nothing in the turns `wait` that follow.
* A reset to a program of more than 3584 bytes is refused with its length and that bound as soon as the desk takes a
  turn.  A reset to any other program is never refused for its length.
* A restore or a load is refused for being busy if and only if the run state is `running` when the desk first looks, and
  that is the first thing it does: a load does so before it looks at the state file.
* A load that finds another run state is refused when the file cannot be read, with the error of the system, or is no
  image, with its defect, whatever bytes it holds.

Nothing comes of any of these: the console, with its run, its machine, its faults, its tone and its file, is left as the
clocks alone leave it, and whatever happens later happens as if nobody had come. -/
theorem refused {sc : Scenario} (hapart : sc.Only Happening.Apart) (hkeeps : sc.Only Happening.KeepsMode) {o : Office}
    (hidle : o.task = none) {wait : List Turn} (hwait : .desk ∉ wait) :
    let mode := (o.run sc (clockTurns wait)).console.board.mode
    (∀ program, 3584 < program.length → o.Refuses sc (.reset program) wait (.romTooLarge program.length 3584)) ∧
    (∀ program turns answer, program.length ≤ 3584 → o.Answers sc (.reset program) turns answer →
      ∀ n max, answer ≠ .error (.romTooLarge n max)) ∧
    (∀ q rest, (∃ m, q.Replaces m) → mode = .running → .desk ∉ rest → o.Refuses sc q (wait ++ .desk :: rest) .busy) ∧
    (∀ q rest answer, (∃ m, q.Replaces m) → mode ≠ .running → o.Answers sc q (wait ++ .desk :: rest) answer →
      answer ≠ .error .busy) ∧
    (∀ look rest e, mode ≠ .running → .desk ∉ look → .desk ∉ rest →
      (∃ e', o.console.file.read = .error e' ∧ e = .system e') ∨
        (∃ bytes d, o.console.file.read = .ok bytes ∧ Image.decode bytes = .error d ∧ e = .invalidImage d) →
      o.Refuses sc .load (wait ++ .desk :: look ++ .desk :: rest) e) := by
  intro mode
  refine ⟨?_, ?_, ?_, ?_, ?_⟩
  · intro program hlarge
    exact refuses_tooLarge sc hidle hlarge hwait
  · intro program turns answer hfits hanswers
    exact ne_tooLarge hapart hidle hfits hanswers
  · intro q rest hq hmode hrest
    exact refuses_busy hidle hq hwait hrest hmode
  · intro q rest answer hq hmode hanswers
    exact ne_busy hapart hkeeps hidle hq hwait hmode hanswers
  · intro look rest e hmode hlook hrest hfile
    exact refuses_load hapart hidle hwait hlook hrest hmode hfile

/-- A program that jumps to itself is running, and the state file holds one byte. -/
def onDuty : Office := (Office.new {}).run alone (session (.reset [0x12, 0x00]) ++ [.file (.regular [0x43])])

/-- The same, held. -/
def held : Office := onDuty.run alone (session .pause)

/-- Both desks are at no request; the one program runs, also after a move of its runner, and the other is held. -/
theorem duties :
    (onDuty.task.isNone = true ∧ onDuty.console.board.mode = .running ∧
      (onDuty.run alone (clockTurns [.runner true])).console.board.mode = .running) ∧
    held.task.isNone = true ∧ held.console.board.mode = .paused ∧ held.console.file.read = .ok [0x43] := by
  decide +kernel

theorem refused_onDuty :
    onDuty.task = none ∧ onDuty.console.board.mode = .running ∧
      onDuty.Refuses alone (.reset (.replicate 3585 0)) [.runner true] (.romTooLarge 3585 3584) ∧
      onDuty.Refuses alone .load [.runner true, .desk, .metronome true false] .busy ∧
      held.task = none ∧ held.console.board.mode = .paused ∧
      held.Refuses alone .load [.desk, .runner true, .desk] (.invalidImage (.truncated 1)) := by
  obtain ⟨⟨hnone, hrunning, hstill⟩, hnone', hpaused, hread⟩ := duties
  have hidle : onDuty.task = none := Option.isNone_iff_eq_none.mp hnone
  have hidle' : held.task = none := Option.isNone_iff_eq_none.mp hnone'
  have hwait : Turn.desk ∉ [Turn.runner true] := by simp
  obtain ⟨htooLarge, -, hbusy, -⟩ := refused (only_alone _) (only_alone _) hidle hwait
  obtain ⟨-, -, -, -, hload⟩ := refused (only_alone _) (only_alone _) hidle' List.not_mem_nil
  refine ⟨hidle, hrunning, ?_, ?_, hidle', hpaused, ?_⟩
  · have hlength : (List.replicate 3585 (0 : UInt8)).length = 3585 := List.length_replicate ..
    have hrefuses := htooLarge (.replicate 3585 0) (by rw [hlength]; decide)
    rwa [hlength] at hrefuses
  · exact hbusy .load [.metronome true false] ⟨.powerOn, .inr rfl⟩ hstill (by simp)
  · have hheld : (held.run alone (clockTurns [])).console.board.mode ≠ .running := by
      rw [clockTurns, List.filter_nil, run, List.foldl_nil, hpaused]
      rintro ⟨⟩
    exact hload [.runner true] [] _ hheld (by simp) (by simp) (.inr ⟨[0x43], .truncated 1, hread, rfl, rfl⟩)

end Office

end ChipEight
