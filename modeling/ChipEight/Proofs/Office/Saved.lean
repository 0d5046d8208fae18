import ChipEight.Proofs.Office.Health
import ChipEight.Proofs.Office.Progress
import ChipEight.Proofs.Office.Protocol

/-!
# What is saved can be loaded

`save_state`, if it succeeds, leaves the image of its copy in the state file, and `load_state` brings back what the file
holds, if that is the image of a well-formed machine.

* `Office.saved` : what is left of a save.
* `Office.held_answered` : under fair turns the desk of a machine that does not run comes to its answers.
* `Office.loaded`, `Office.load_answer` : what is left of a load, and what it answers.
-/

namespace ChipEight

open Procedure (single Secures Within)
open Scene (Fits Rests)

/-! ### To save -/

namespace Order

variable {sc : Scenario} {s : Scene} {ds : List Event}

theorem saves (h : s.Rests ds) :
    Request.save.order.run.Secures sc (Fits sc .save)
      (fun answer s => answer = .ok none → ∃ who m, RestsOn (ds ++ [.copied who m]) (StateFile.Took (Image.encode m)) s)
      s :=
  Secures.andThen (save_secures (.inr rfl) h) (fun _ _ h => Secures.done fun _ => h) fun _ _ _ => Secures.done nofun

theorem loads (h : s.Rests ds) :
    Request.load.order.run.Secures sc (Fits sc .load)
      (fun answer s' => ∀ x, answer = .ok x → x = none ∧ ∃ who m bytes, s.console.file.read = .ok bytes ∧
        Image.decode bytes = .ok m ∧ s'.Rests (ds ++ [.replaced who m])) s := by
  refine Secures.andThen (load_secures rfl h) (fun _ s' h => Secures.done ?_) fun _ _ _ => Secures.done nofun
  rintro _ ⟨⟩
  exact ⟨rfl, h⟩

end Order

namespace Office

variable {sc : Scenario} {o : Office} {turns : List Turn} {answer : Request.Answer}

/-- Whoever has asked of an office at rest finds the desk with the answer at hand. -/
theorem Answers.secured {q : Request} (ho : o.Reachable) (hidle : o.task = none) (hapart : sc.Only Happening.Apart)
    {Q : Request.Answer → Scene → Prop}
    (hsecures : (o.add (.called q)).Rests (deals o.past) →
      q.order.run.Secures sc (Fits sc q) Q (o.add (.called q)))
    (hanswers : o.Answers sc q turns answer) :
    ∃ s during s₁, ((o.advance sc (.call q)).run sc turns) = busy s q (.done answer) ∧
      s.past = o.past ++ .called q :: during ∧ (∀ e ∈ during, e.Inner) ∧ Q answer s₁ ∧ s₁.Drifts sc s := by
  obtain ⟨a, hrests⟩ := ho.rests hidle
  have hcalled : (o.add (.called q)).Rests (deals o.past) := ⟨a, hrests.add (Event.plain_called q)⟩
  obtain ⟨s, hrun, during, hpast, hinner⟩ := hanswers
  have hbusy := hrun
  rw [advance_call sc hidle] at hbusy
  have hasks : q.Asks o.past (o.add (.called q)).past := ⟨[], rfl, nofun⟩
  obtain ⟨s₁, hQ, hdrift⟩ := secures_of_asks hapart (hsecures hcalled) hasks hbusy ⟨during, hpast, hinner⟩
  exact ⟨s, during, s₁, hrun, hpast, hinner, hQ, hdrift⟩

theorem Answers.settles {q : Request} (ho : o.Reachable) (hidle : o.task = none) (hapart : sc.Only Happening.Apart)
    {during : List Event} (hpast : ((o.advance sc (.call q)).run sc turns).past = o.past ++ .called q :: during)
    (hanswers : o.Answers sc q turns answer) : q.Settles answer (deals during) := by
  obtain ⟨s, -, s₁, hrun, -, -, hmeets, hdrift⟩ := hanswers.secured ho hidle hapart (Order.meets q)
  rw [hrun] at hpast
  exact (Order.firm_meets.drifts hmeets hdrift).settles hpast

theorem deals_during {s : Scene} {q : Request} {before during ds : List Event}
    (h : s.Rests (deals before ++ ds)) (hpast : s.past = before ++ .called q :: during) : deals during = ds := by
  obtain ⟨a, hstands⟩ := h
  have hall := hstands.deals
  rw [hpast, deals_append] at hall
  exact List.append_cancel_left hall

/-- **A save that succeeded** has made a copy, and the state file has taken its image.  The copy is well-formed if
nobody has restored an ill-formed machine before. -/
theorem saved (ho : o.Reachable) (hidle : o.task = none) (hapart : sc.Only Happening.Apart)
    (hsaves : o.Answers sc .save turns (.ok none)) :
    ∃ who m during, ((o.advance sc (.call .save)).run sc turns).past = o.past ++ .called .save :: during ∧
      deals during = [.copied who m] ∧
      ((o.advance sc (.call .save)).run sc turns).console.file.Took (Image.encode m) ∧
      (Given o.past → m.WellFormed) := by
  obtain ⟨s, during, s₁, hrun, hpast, hinner, hQ, hdrift⟩ :=
    hsaves.secured ho hidle hapart Order.saves
  obtain ⟨who, m, hrests⟩ := hQ rfl
  obtain ⟨hrests, htook⟩ := hdrift.induct Order.RestsOn.moves hrests
  have hdeals : deals during = [.copied who m] := deals_during hrests hpast
  refine ⟨who, m, during, ?_, hdeals, ?_, ?_⟩
  · rw [hrun]
    exact hpast
  · rw [hrun]
    exact htook
  · intro hgiven
    have hreachable : (o.run sc (.call .save :: turns)).Reachable := .run ho hidle hapart _
    have hpast' : (o.run sc (.call .save :: turns)).past = o.past ++ .called .save :: during := by
      rw [run_cons, hrun]
      exact hpast
    have hcopied : Event.copied who m ∈ (o.run sc (.call .save :: turns)).past := by
      have hmem : Event.copied who m ∈ deals during := hdeals ▸ List.mem_singleton_self _
      rw [hpast']
      exact List.mem_append_right _ (List.mem_cons_of_mem _ (List.mem_of_mem_filter hmem))
    refine (hreachable.healthy ?_).scene.2 who m hcopied
    intro m' hmem
    rw [hpast'] at hmem
    rcases List.mem_append.mp hmem with hold | hnew
    · exact hgiven m' hold
    · rcases List.mem_cons.mp hnew with heq | hduring
      · cases heq
      · exact (hinner _ hduring).elim

end Office

/-! ### To load -/

/-- Where the run state is not `running`, every wait of an action that fits comes to an end. -/
theorem Scene.Fits.yields_of_held {sc : Scenario} (hkeeps : sc.Only Happening.KeepsMode) {q : Request} {s : Scene}
    {a : Action} (h : s.Fits sc q a) (hheld : s.console.board.mode ≠ .running) : s.console.Yields a := by
  cases a with
  | collect ticket => exact ⟨hheld, h.2⟩
  | joinRunner | joinMetronome => exact h.2 hkeeps
  | _ => trivial

/-- The run state is not `running`, the state file is this one, and no runner died. -/
structure Scene.Undisturbed (f : StateFile) (s : Scene) : Prop where
  held : s.console.board.mode ≠ .running
  file : s.console.file = f
  lives : s.console.runner ≠ .died

def Action.Undisturbed (f : StateFile) : (a : Action) → a.Answer → Prop
  | .readMode, s => s ≠ .running
  | .readFile, x => x = f.read
  | .joinRunner, whole => whole = true
  | _, _ => True

/-- A request that neither lets the machine run nor writes the state file. -/
structure Request.Gentle (q : Request) : Prop where
  modes : ¬ q.bounds.modes .running
  threads : ¬ q.bounds.threads
  writes : ¬ q.bounds.writes

theorem Request.gentle_capture : Request.capture.Gentle where
  modes := id
  threads := by rintro (h | ⟨program, h⟩) <;> cases h
  writes := nofun

theorem Request.gentle_load : Request.load.Gentle where
  modes := id
  threads := by rintro (h | ⟨program, h⟩) <;> cases h
  writes := nofun

/-- Of what such a request meets, only a death disturbs. -/
theorem Scene.grants_undisturbed {sc : Scenario} (hkeeps : sc.Only Happening.KeepsMode) {q : Request} (hq : q.Gentle)
    (f : StateFile) :
    Grants sc (Action.Undisturbed f) (Action.Bounded q.bounds) (· = .died) (Scene.Undisturbed f) where
  moves {s c es} h hmoves := by
    by_cases hdied : c.runner = .died
    · rcases hmoves.died_of_died hdied with hbefore | ⟨-, rfl⟩
      · exact absurd hbefore h.lives
      · exact .inl ⟨.died, by simp, rfl⟩
    · refine .inr ⟨?_, hmoves.file_eq.trans h.file, hdied⟩
      show c.board.mode ≠ .running
      rcases hmoves.mode_eq_or hkeeps with hsame | hstopped
      · rw [hsame]
        exact h.held
      · rw [hstopped]
        rintro ⟨⟩
  acts {s a x c} h ha hact := by
    obtain ⟨hmode, hfile, hrunner⟩ := (Console.footprint_of_act hact).toSpared
    refine ⟨?_, ?_, ?_, ?_⟩
    · cases a with
      | readMode =>
        cases hact
        exact h.held
      | readFile =>
        cases hact
        exact congrArg StateFile.read h.file
      | joinRunner =>
        rcases Console.of_joinRunner hact with ⟨-, rfl, -⟩ | ⟨p, -, rfl, -⟩ | ⟨hdied, -, -⟩
        · rfl
        · rfl
        · exact absurd hdied h.lives
      | _ => trivial
    · show c.board.mode ≠ .running
      rcases hmode with hsame | rfl
      · rw [hsame]
        exact h.held
      · rcases ha with hstopped | hset
        · rw [hstopped]
          rintro ⟨⟩
        · exact fun hrunning => hq.modes (hrunning ▸ hset)
    · rcases hfile with hsame | rfl | ⟨bytes, rfl⟩
      · exact hsame.trans h.file
      · exact absurd ha hq.writes
      · exact absurd ha hq.writes
    · show c.runner ≠ .died
      rcases hrunner with hsame | ⟨-, hnone⟩ | rfl
      · rw [hsame]
        exact h.lives
      · rw [hnone]
        rintro ⟨⟩
      · exact absurd ha hq.threads

namespace Office

variable {sc : Scenario} {o : Office} {turns : List Turn} {answer : Request.Answer}

/-- Along the turns that bring an answer, something that an order relies on is broken, or it is answered as the order
allows. -/
theorem Answers.within {q : Request} {A : (a : Action) → a.Answer → Prop} {F : Action → Prop} {X : Event → Prop}
    {Q : Request.Answer → Prop} {J : Scene → Prop} (hidle : o.task = none) (hapart : sc.Only Happening.Apart)
    (hJ : Scene.Grants sc A F X J) (hq : q.order.run.Within A F Q) (hs : J (o.add (.called q))) {during : List Event}
    (hpast : ((o.advance sc (.call q)).run sc turns).past = o.past ++ .called q :: during)
    (hanswers : o.Answers sc q turns answer) :
    (∃ e ∈ during, X e) ∨ Q answer ∧ J ((o.advance sc (.call q)).run sc turns).toScene := by
  obtain ⟨s, hrun, hasks⟩ := hanswers
  have hbusy := hrun
  rw [advance_call sc hidle] at hbusy
  rw [hrun] at hpast ⊢
  have hcalled : q.Asks o.past (o.add (.called q)).past := ⟨[], rfl, nofun⟩
  rcases within_of_asks hapart hJ hq hs hcalled hbusy hasks with ⟨es, hes, hX⟩ | hQ
  · refine .inl ?_
    have hpast : s.past = o.past ++ .called q :: during := hpast
    rw [hpast, Scene.add, List.append_assoc, List.append_cancel_left_eq, List.singleton_append, List.cons.injEq] at hes
    rw [hes.2]
    exact hX
  · exact .inr hQ

/-- **Under fair turns the desk comes to its answer**, where the run state is not `running` and the request does not
make it so. -/
theorem held_answered (ho : o.Reachable) (hidle : o.task = none) (hapart : sc.Only Happening.Apart)
    (hkeeps : sc.Only Happening.KeepsMode) (hheld : o.console.board.mode ≠ .running) {q : Request}
    (hq : ¬ q.bounds.modes .running) {σ : Nat → Turn} (hfair : Fair σ) :
    ∃ n answer, o.Answers sc q ((List.range n).map σ) answer := by
  obtain ⟨a, hrests⟩ := ho.rests hidle
  have hcalled : (o.add (.called q)).Rests (deals o.past) := ⟨a, hrests.add (Event.plain_called q)⟩
  have hgrants := Scene.grants_held hkeeps hq
  have hmeets : q.order.run.Secures sc (Fits sc q) (q.Meets (deals o.past)) (o.add (.called q)) := Order.meets q hcalled
  have hsecures := hmeets.within (Order.request_within (fun _ _ => True) q)
  have hguarded := hsecures.guarded hheld (fun h hmoves => (hgrants.moves h hmoves).resolve_left (by simp))
    fun h hfits hact => (hgrants.acts h hfits.2 hact).2
  obtain ⟨n, s, p, halong, ⟨⟨answer, rfl, -⟩, -⟩, hext⟩ :=
    leads_along hapart hfair (fun _ _ h => h.1.1.yields_of_held hkeeps h.2) hguarded q
  refine ⟨n, answer, s, ?_, hext.asks⟩
  rw [advance_call sc hidle]
  exact halong

theorem loaded (ho : o.Reachable) (hidle : o.task = none) (hapart : sc.Only Happening.Apart) {x : Option Machine}
    {during : List Event}
    (hpast : ((o.advance sc (.call .load)).run sc turns).past = o.past ++ .called .load :: during)
    (hanswers : o.Answers sc .load turns (.ok x)) :
    x = none ∧ ∃ who m bytes, o.console.file.read = .ok bytes ∧ Image.decode bytes = .ok m ∧
      deals during = [.replaced who m] := by
  obtain ⟨s, -, s₁, hrun, -, -, hQ, hdrift⟩ := hanswers.secured ho hidle hapart Order.loads
  obtain ⟨hx, who, m, bytes, hread, hdecode, hrests⟩ := hQ x rfl
  rw [hrun] at hpast
  exact ⟨hx, who, m, bytes, hread, hdecode, deals_during (hdrift.induct Scene.Rests.moves hrests) hpast⟩

/-- **A load succeeds if and only if the state file holds the image of a well-formed machine**, unless a runner died. -/
theorem load_answer (ho : o.Reachable) (hidle : o.task = none) (hapart : sc.Only Happening.Apart)
    (hkeeps : sc.Only Happening.KeepsMode) (hheld : o.console.board.mode ≠ .running)
    (hlives : o.console.runner ≠ .died) {during : List Event}
    (hpast : ((o.advance sc (.call .load)).run sc turns).past = o.past ++ .called .load :: during)
    (hanswers : o.Answers sc .load turns answer) (hdied : .died ∉ during) :
    answer = .ok none ↔ ∃ bytes m, o.console.file.read = .ok bytes ∧ Image.decode bytes = .ok m := by
  constructor
  · rintro rfl
    obtain ⟨-, who, m, bytes, hread, hdecode, -⟩ := loaded ho hidle hapart hpast hanswers
    exact ⟨bytes, m, hread, hdecode⟩
  · rintro ⟨bytes, m, hread, hdecode⟩
    have hwithin := Order.request_within (Action.Undisturbed o.console.file) .load
    have hundisturbed : Scene.Undisturbed o.console.file (o.add (.called .load)) := ⟨hheld, rfl, hlives⟩
    have hgrants := Scene.grants_undisturbed hkeeps Request.gentle_load o.console.file
    rcases hanswers.within hidle hapart hgrants hwithin hundisturbed hpast with ⟨e, he, rfl⟩ | ⟨hblames, -⟩
    · exact absurd he hdied
    cases answer with
    | ok x => rw [(loaded ho hidle hapart hpast hanswers).1]
    | error e =>
      exfalso
      cases hblames e rfl with
      | refused hq => exact Request.gentle_load.threads hq
      | busy hq hmode => exact hmode rfl
      | unread hunread => cases hread.symm.trans hunread.symm
      | undecoded hread' hdefect =>
        cases hread.symm.trans hread'.symm
        cases hdecode.symm.trans hdefect
      | lost hlost => cases hlost

end Office

end ChipEight
