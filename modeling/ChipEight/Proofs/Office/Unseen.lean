import ChipEight.Proofs.Office.Asides
import ChipEight.Proofs.Office.Still
import ChipEight.Proofs.Office.Torn

/-!
# Copies that nobody sees

A history with requests for copies (`snapshot`, `save_state`) that somebody has put in, and the same history without
them.

* `Stretch` : a turn of the history, or a request that was put in.
* `Office.Admits` : what was put in are copies, put in where a run that has ended looks so.
* `Office.Retraces` : the turns of the history without them.
* `Lockstep.goes` : the two offices do the same, stretch after stretch.
* `Office.unseen` : a copy cannot be told from none, two copies of a machine that stands still are equal, and where a
  run has ended and does not look so a copy is seen.
-/

namespace ChipEight

/-- A part of a history: a turn, or a request that somebody has put in, with all turns until it is answered. -/
inductive Stretch where
  | turn (t : Turn)
  | aside (q : Request) (turns : List Turn)

namespace Stretch

def turns : Stretch → List Turn
  | .turn t => [t]
  | .aside q turns => .call q :: turns

def all (h : List Stretch) : List Turn := h.flatMap turns

end Stretch

namespace Office

def since (o o' : Office) : List Event := o'.past.drop o.past.length

theorem since_of_append {o o' : Office} {es : List Event} (h : o'.past = o.past ++ es) : o.since o' = es := by
  rw [since, h, List.drop_left]

/-- What may be put in, and where.
* It is a request for a copy, whether it is written down or not, that finds the desk at no request and is answered in the
  last of its turns.
* A run that has ended looks so.
* Nobody reads a state file that the copy has changed: `own` tells that it is the one that the history itself has left. -/
def Admits (sc : Scenario) : (own : Bool) → Office → List Stretch → Prop
  | _, _, [] => True
  | own, o, .turn t :: h =>
    (o.Reads t → own = true) ∧ Admits sc (own || decide (o.Rewrites t)) (o.advance sc t) h
  | own, o, .aside q turns :: h =>
    (o.task.isNone ∧ q.Copies ∧ o.console.WorksUnlessStopped ∧ (o.advance sc (.call q)).Concludes sc turns) ∧
      Admits sc (own && (o.run sc (.call q :: turns)).console.file == o.console.file) (o.run sc (.call q :: turns)) h

instance (c : Console) : Decidable c.WorksUnlessStopped :=
  match hrunner : c.runner with
  | .live r => decidable_of_iff (c.board.mode ≠ .stopped → r.stage ≠ .leaving)
      (by simp only [Console.WorksUnlessStopped, hrunner, Thread.live.injEq, exists_eq_left'])
  | .none | .ended _ | .died => decidable_of_iff (c.board.mode = .stopped) (by simp [Console.WorksUnlessStopped, hrunner])

instance (q : Request) : Decidable q.Copies := inferInstanceAs (Decidable (_ ∨ _))

instance decidableConcludes (sc : Scenario) : (o : Office) → (turns : List Turn) → Decidable (o.Concludes sc turns)
  | _, [] => instDecidableFalse
  | o, t :: turns =>
    have := decidableConcludes sc (o.advance sc t) turns
    inferInstanceAs (Decidable (if (o.advance sc t).task.isNone then turns = [] else (o.advance sc t).Concludes sc turns))

instance decidableAdmits (sc : Scenario) :
    (own : Bool) → (o : Office) → (h : List Stretch) → Decidable (Admits sc own o h)
  | _, _, [] => instDecidableTrue
  | own, o, .turn t :: h =>
    have := decidableAdmits sc (own || decide (o.Rewrites t)) (o.advance sc t) h
    inferInstanceAs (Decidable (_ ∧ _))
  | own, o, .aside q turns :: h =>
    have := decidableAdmits sc (own && (o.run sc (.call q :: turns)).console.file == o.console.file)
      (o.run sc (.call q :: turns)) h
    inferInstanceAs (Decidable (_ ∧ _))

/-- The turns of a history without what was put in: the same turns of the clocks, but for those in which the runner has
handed out a copy, and as many turns of the desk as it takes. -/
inductive Retraces (sc : Scenario) : Office → List Stretch → List Turn → Prop
  | nil {o : Office} : Retraces sc o [] []
  | turn {o : Office} {t : Turn} {piece path : List Turn} {h : List Stretch} (hcovers : Covers t piece)
    (hrest : Retraces sc (o.advance sc t) h path) : Retraces sc o (.turn t :: h) (piece ++ path)
  | aside {o : Office} {q : Request} {turns path : List Turn} {h : List Stretch}
    (hrest : Retraces sc (o.run sc (.call q :: turns)) h path) :
    Retraces sc o (.aside q turns :: h) ((o.advance sc (.call q)).bare sc turns ++ path)

/-- What happens in a history, but for the requests and the copies that were put in. -/
def pastWithout (sc : Scenario) : Office → List Stretch → List Event
  | _, [] => []
  | o, .turn t :: h => o.since (o.advance sc t) ++ (o.advance sc t).pastWithout sc h
  | o, .aside q turns :: h =>
    (o.since (o.run sc (.call q :: turns))).filter Event.remains ++ (o.run sc (.call q :: turns)).pastWithout sc h

/-- The two look alike: run state, timers, screen, rate and fault, the calls to the surroundings, and the request that the
desk is at. -/
structure LooksLike (w v : Office) : Prop where
  board : v.console.board = w.console.board
  tally : v.console.tally = w.console.tally
  task : v.task.map Prod.fst = w.task.map Prod.fst

variable {sc : Scenario} {o w v : Office} {h : List Stretch} {q : Request} {turns : List Turn}

/-! ### One history beside the other -/

theorem Lockstep.looksLike (h : Lockstep w v) : w.LooksLike v := by
  cases h with
  | idle h =>
    rcases h with hlevel | hahead
    · exact ⟨hlevel.beside.board_eq, hlevel.beside.tally_eq, rfl⟩
    · exact ⟨hahead.board_eq, hahead.tally_eq, rfl⟩
  | level h => exact ⟨h.beside.board_eq, h.beside.tally_eq, rfl⟩
  | ahead h => exact ⟨h.board_eq, h.tally_eq, rfl⟩
  | waiting h => exact ⟨h.beside.board_eq, h.beside.tally_eq, rfl⟩

theorem isClock_of_mem_bare (sc : Scenario) (turns : List Turn) :
    ∀ {o : Office}, ∀ t ∈ o.bare sc turns, t.isClock = true := by
  induction turns with
  | nil => exact nofun
  | cons t turns ih =>
    intro o t' ht'
    rcases List.mem_append.mp ht' with hmem | hmem
    · split at hmem
      · next hclock =>
        cases List.mem_singleton.mp hmem
        exact (Bool.and_eq_true_iff.mp hclock).1
      · cases hmem
    · exact ih t' hmem

/-- Between two requests the desk knows of every runner, and unless one has died it can tell whether it is at work. -/
theorem Sound.consistent {T : Turn → Prop} (hsound : w.Sound sc T) (hidle : w.task = none) (hdied : .died ∉ w.past)
    (hworking : w.console.WorksUnlessStopped) : w.console.RunConsistent := by
  obtain ⟨attached, hstands⟩ := hsound.rests hidle
  refine ⟨hworking, hstands.attached.trans hstands.runner.symm, fun hlost => ?_⟩
  obtain ⟨before, after, hpast, -⟩ := hstands.died hlost
  exact hdied (hpast ▸ List.mem_append_right _ List.mem_cons_self)

/-- **What was put in** leaves the offices in lockstep. -/
theorem Lockstep.aside {T : Turn → Prop} (hsc : sc.Only Happening.Apart) (hlock : Lockstep w v) (hsound : w.Sound sc T)
    (hidle : w.task.isNone) (hq : q.Copies) (hworking : w.console.WorksUnlessStopped)
    (hturns : (w.advance sc (.call q)).Concludes sc turns) (hdied : .died ∉ (w.run sc (.call q :: turns)).past) :
    Lockstep (w.run sc (.call q :: turns)) (v.run sc ((w.advance sc (.call q)).bare sc turns)) ∧
      (v.run sc ((w.advance sc (.call q)).bare sc turns)).past =
        v.past ++ (w.since (w.run sc (.call q :: turns))).filter Event.remains ∧
      (v.run sc ((w.advance sc (.call q)).bare sc turns)).console.file = v.console.file := by
  have hbefore : .died ∉ w.past := by
    obtain ⟨es, hes⟩ := past_run sc w (.call q :: turns)
    exact fun hmem => hdied (hes ▸ List.mem_append_left es hmem)
  have hconsistent : w.console.RunConsistent := hsound.consistent (Option.isNone_iff_eq_none.mp hidle) hbefore hworking
  cases hlock with
  | level | ahead | waiting => cases hidle
  | @idle s v heither =>
    have hcall : ({ toScene := s } : Office).advance sc (.call q) = busy (s.add (.called q)) q q.order.run := rfl
    rw [run_cons, hcall] at hdied ⊢
    rw [hcall] at hturns
    have honPar : (s.add (.called q)).console.OnPar v.console := ⟨heither, hconsistent⟩
    obtain ⟨answer, s', v', hrun, hrun', heither', es, hes, hes'⟩ :=
      hturns.outlines (v := v) (Order.outlines_order hsc hq) honPar hdied
    have hpast : (s'.add (.answered q answer)).past = s.past ++ ([.called q] ++ es ++ [.answered q answer]) := by
      simp only [Scene.add, hes, List.append_assoc]
    have hsince : ({ toScene := s } : Office).since { toScene := s'.add (.answered q answer) } =
        [.called q] ++ es ++ [.answered q answer] := since_of_append hpast
    have hfile :
        (({ toScene := v } : Office).run sc ((busy (s.add (.called q)) q q.order.run).bare sc turns)).console.file =
          v.console.file := by
      have hclocks := List.filter_eq_self.mpr
        (isClock_of_mem_bare sc turns (o := busy (s.add (.called q)) q q.order.run))
      have hkept := file_run_clockTurns hsc (o := { toScene := v }) rfl
        ((busy (s.add (.called q)) q q.order.run).bare sc turns)
      rwa [clockTurns, hclocks] at hkept
    rw [hrun, hrun', hsince]
    rw [hrun'] at hfile
    refine ⟨.idle (s := s'.add (.answered q answer)) heither'.levelOrAhead, ?_, hfile⟩
    simp [hes', Event.remains]

/-- **Stretch after stretch** the offices stay in lockstep, and the same happens in both but for what was put in. -/
theorem Lockstep.goes (hsc : sc.Only Happening.Apart) {own : Bool} (hlock : Lockstep w v)
    (hsound : w.Sound sc fun _ => True) (hown : own = true → v.console.file = w.console.file)
    (hadmits : w.Admits sc own h) (hdied : .died ∉ (w.run sc (Stretch.all h)).past) :
    ∃ path, w.Retraces sc h path ∧ Lockstep (w.run sc (Stretch.all h)) (v.run sc path) ∧
      (v.run sc path).past = v.past ++ w.pastWithout sc h := by
  induction h generalizing own w v with
  | nil => exact ⟨[], .nil, hlock, (List.append_nil _).symm⟩
  | cons x h ih =>
    have hall : w.run sc (Stretch.all (x :: h)) = (w.run sc x.turns).run sc (Stretch.all h) := by
      rw [Stretch.all, List.flatMap_cons, run_append]
      rfl
    have hsound' : (w.run sc x.turns).Sound sc fun _ => True :=
      (hsound.run hsc (fun _ _ => trivial) (J := fun _ => True) (fun _ _ _ _ => trivial) trivial).1
    rw [hall] at hdied ⊢
    cases x with
    | turn t =>
      obtain ⟨hreads, hrest⟩ := hadmits
      obtain ⟨piece, hkeeps⟩ := hlock.advance hsc fun hread => hown (hreads hread)
      obtain ⟨es, hes, hes'⟩ := hkeeps.alike
      have hown' : (own || decide (w.Rewrites t)) = true →
          (v.run sc piece).console.file = (w.advance sc t).console.file := by
        intro htrue
        refine hkeeps.file ((Bool.or_eq_true_iff.mp htrue).imp hown fun hrewrites => ?_)
        exact of_decide_eq_true hrewrites
      obtain ⟨path, hretraces, hlock', hpast⟩ := ih hkeeps.lockstep hsound' hown' hrest hdied
      refine ⟨piece ++ path, .turn hkeeps.covers hretraces, ?_, ?_⟩
      · rw [run_append]
        exact hlock'
      · rw [run_append, hpast, hes', pastWithout, since_of_append hes, List.append_assoc]
    | aside q turns =>
      obtain ⟨⟨hidle, hq, hworking, hturns⟩, hrest⟩ := hadmits
      have hdied' : .died ∉ (w.run sc (.call q :: turns)).past := by
        obtain ⟨es, hes⟩ := past_run sc (w.run sc (.call q :: turns)) (Stretch.all h)
        exact fun hmem => hdied (hes ▸ List.mem_append_left es hmem)
      obtain ⟨hlock', hpast, hfile⟩ := hlock.aside hsc hsound hidle hq hworking hturns hdied'
      have hown' : (own && (w.run sc (.call q :: turns)).console.file == w.console.file) = true →
          (v.run sc ((w.advance sc (.call q)).bare sc turns)).console.file =
            (w.run sc (.call q :: turns)).console.file := by
        intro htrue
        obtain ⟨hown₀, hsame⟩ := Bool.and_eq_true_iff.mp htrue
        exact hfile.trans ((hown hown₀).trans (eq_of_beq hsame).symm)
      obtain ⟨path, hretraces, hlock'', hpast'⟩ := ih hlock' hsound' hown' hrest hdied
      refine ⟨_, .aside hretraces, ?_, ?_⟩
      · rw [run_append]
        exact hlock''
      · rw [run_append, hpast', hpast, pastWithout, List.append_assoc]

theorem lockstep_self (ho : o.Rests (deals o.past)) (hidle : o.task = none) : Lockstep o o := by
  obtain ⟨s, task⟩ := o
  cases hidle
  obtain ⟨attached, hstands⟩ := ho
  have hquiet : s.console.mail.Quiet := ⟨hstands.jobs, hstands.replies⟩
  exact .idle (.inl ⟨⟨s.console.mail, s.console.file, s.console.journal, rfl, .refl _⟩, hquiet, hquiet⟩)

/-- **A copy is not seen.**  An office has any history, and it goes on with a history in which requests for copies were
put in, be they written down or not.  No runner dies.
* There is the same history without them, and the two cannot be told apart: in both the same happens in the same order,
  with the same answers, and the offices look alike.
* Two copies of a machine that stands still, one after the other, are equal.
* A copy is seen where a run has ended and does not look so: afterwards the run state is `stopped`, as it is not
  otherwise. -/
theorem unseen (ho : o.Reachable) (hidle : o.task = none) (hsc : sc.Only Happening.Apart) (hadmits : o.Admits sc true h)
    (hdied : .died ∉ (o.run sc (Stretch.all h)).past) :
    let w := o.run sc (Stretch.all h)
    (∃ path, o.Retraces sc h path ∧ w.LooksLike (o.run sc path) ∧
      (o.run sc path).past = o.past ++ o.pastWithout sc h) ∧
    (w.task = none → w.console.Still → ∀ turns between turns' answer answer', (∀ q, .call q ∉ between) →
      w.Answers sc .capture turns answer →
      (w.run sc (.call .capture :: turns ++ .desk :: between)).Answers sc .capture turns' answer' →
        answer = .ok (some w.console.machine) ∧ answer' = answer) ∧
    (w.task = none → w.console.desk.attached = true → ¬ w.console.WorksUnlessStopped → ∀ q turns answer, q.Copies →
      w.Answers sc q turns answer →
        (w.run sc (.call q :: turns ++ [.desk])).console.board.mode = .stopped ∧
          ∀ path, (∀ t ∈ path, t.isClock = true) → (w.run sc path).console.board.mode ≠ .stopped) := by
  intro w
  have hrests : o.Rests (deals o.past) := ho.rests hidle
  have hsound : o.Sound sc fun _ => True := sound_of_rests hidle hrests
  have hsound' : w.Sound sc fun _ => True :=
    (hsound.run hsc (fun _ _ => trivial) (J := fun _ => True) (fun _ _ _ _ => trivial) trivial).1
  refine ⟨?_, ?_, ?_⟩
  · obtain ⟨path, hretraces, hlock, hpast⟩ := (lockstep_self hrests hidle).goes hsc hsound (fun _ => rfl) hadmits hdied
    exact ⟨path, hretraces, hlock.looksLike, hpast⟩
  · intro hidle' hstill turns between turns' answer answer' hbetween hanswers hanswers'
    have hstands : w.toScene.StillAt w.past w.console.machine := hsound'.stillAt hidle' hdied hstill
    obtain ⟨hanswer, hidle₁, hstill₁, hdied₁⟩ := copy_of_still hsc hsound' hidle' hdied hstands hanswers hbetween
    have hsound₁ : (w.run sc (.call .capture :: turns ++ .desk :: between)).Sound sc fun _ => True :=
      (hsound'.run hsc (fun _ _ => trivial) (J := fun _ => True) (fun _ _ _ _ => trivial) trivial).1
    have hnone : ∀ q, .call q ∉ ([] : List Turn) := nofun
    obtain ⟨hanswer', -⟩ := copy_of_still hsc hsound₁ hidle₁ hdied₁ ⟨hstill₁, [], (List.append_nil _).symm, nofun⟩
      hanswers' hnone
    exact ⟨hanswer, hanswer'.trans hanswer.symm⟩
  · intro hidle' hattached hworking q turns answer hq hanswers
    obtain ⟨attached, hstands⟩ := hsound'.rests hidle'
    obtain ⟨hmode, hover⟩ := Classical.not_imp.mp hworking
    have htorn : w.console.Torn := by
      refine ⟨hmode, hattached, fun r hlive => ?_, hstands.replies⟩
      by_contra hstage
      exact hover ⟨r, hlive, hstage⟩
    refine ⟨stopped_of_torn hsc hq hidle' htorn hanswers, fun path hpath => ?_⟩
    rw [mode_of_torn hsc hidle' htorn hpath]
    exact hmode

/-- A program fails at once; somebody puts in a copy and a save before the run is stopped and the fault reported. -/
def failedAndCopied : List Stretch :=
  (session (.reset [0x00, 0xEE])).map .turn ++
    [.aside .capture (.replicate 13 .desk), .aside .save (.replicate 8 .desk)] ++ (session .stop).map .turn

@[irreducible]
def reported : Office := (Office.new {}).run alone (Stretch.all failedAndCopied)

theorem reported_eq : reported = (Office.new {}).run alone (Stretch.all failedAndCopied) := by
  unfold reported
  rfl

theorem unseen_failedAndCopied :
    (Office.new {}).Admits alone true failedAndCopied ∧ .died ∉ reported.past ∧
      (∃ path, (Office.new {}).Retraces alone failedAndCopied path ∧
        reported.LooksLike ((Office.new {}).run alone path) ∧
        ((Office.new {}).run alone path).past =
          (Office.new {}).past ++ (Office.new {}).pastWithout alone failedAndCopied) ∧
      reported.Answers alone .capture (.replicate 3 .desk) (.ok (some reported.console.machine)) ∧
      (reported.run alone (.call .capture :: .replicate 3 .desk ++ [.desk])).Answers alone .capture (.replicate 3 .desk)
        (.ok (some reported.console.machine)) := by
  have hadmits : (Office.new {}).Admits alone true failedAndCopied := by decide +kernel
  obtain ⟨hall, hnone, hstopped, hgone, hgone'⟩ : (reported.past.all fun | .died => false | _ => true) = true ∧
      reported.task.isNone = true ∧ reported.console.board.mode = .stopped ∧
      reported.console.runner = .none ∧ reported.console.metronome = .none := by decide +kernel
  have hdied : .died ∉ reported.past := by
    intro hmem
    cases List.all_eq_true.mp hall _ hmem
  have hidle : reported.task = none := Option.isNone_iff_eq_none.mp hnone
  have hstill : reported.console.Still := by
    refine ⟨?_, ?_, ?_⟩
    · rw [hstopped]
      nofun
    · rw [hgone]
      nofun
    · rw [hgone']
      nofun
  have hcalls : ∀ q, .call q ∉ List.replicate 3 Turn.desk := by simp
  obtain ⟨hfirst, hidle', hsecond⟩ :
      (((reported.advance alone (.call .capture)).run alone (.replicate 3 .desk)).answer?).isSome = true ∧
        (reported.run alone (.call .capture :: .replicate 3 .desk ++ [.desk])).task.isNone = true ∧
          ((((reported.run alone (.call .capture :: .replicate 3 .desk ++ [.desk])).advance alone (.call .capture)).run
            alone (.replicate 3 .desk)).answer?).isSome = true := by decide +kernel
  obtain ⟨⟨q, answer⟩, hanswer⟩ := Option.isSome_iff_exists.mp hfirst
  obtain ⟨⟨q', answer'⟩, hanswer'⟩ := Option.isSome_iff_exists.mp hsecond
  have hanswers := answers_of_answer? (only_alone _) hidle hcalls hanswer
  have hanswers' := answers_of_answer? (only_alone _) (Option.isNone_iff_eq_none.mp hidle') hcalls hanswer'
  have hreachable : (Office.new {}).Reachable := .new {}
  obtain ⟨hunseen, hequal, -⟩ := unseen hreachable rfl (only_alone _) hadmits (reported_eq ▸ hdied)
  rw [← reported_eq] at hunseen hequal
  obtain ⟨rfl, rfl⟩ := hequal hidle hstill (.replicate 3 .desk) [] (.replicate 3 .desk) answer answer' nofun hanswers
    hanswers'
  exact ⟨hadmits, hdied, hunseen, hanswers, hanswers'⟩

end Office

end ChipEight
