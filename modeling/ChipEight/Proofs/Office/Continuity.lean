import ChipEight.Proofs.Office.Birth
import ChipEight.Proofs.Office.Protocol

/-!
# One continuous execution

However often a run is ended and another begun, held and let go (`stop`, `start`, `pause`, `unpause`), the machine goes
on from where it was left.

* `Event.Steady` : nothing touches the machine but steps and ticks.
* `Scene.Unbroken` : what there is to say of everything that has happened since a run began.
* `Unbroken.goes` : it is kept by every turn that leaves the machine alone.
* `exists_moments` : the copies that were handed out are moments of one execution, in order.
* `Office.continuous` : from a reset on.
-/

namespace ChipEight

namespace Event

def beat? : Event → Option Core.Beat
  | .stepped => some .step
  | .ticked => some .tick
  | _ => none

def brings? : Event → Option Request.Answer
  | .answered .capture answer => some answer
  | _ => none

/-- The machine is where it was, and nobody but the clocks has touched it. -/
def Steady : Event → Prop
  | .died | .replaced .. | .seated _ | .cleared | .lost => False
  | _ => True

/-- A copy is one of the machine that the events before it have made of the core `k`, and a capture brings a copy that
was made since it was asked for. -/
def Continues (o : Surroundings) (k : Core) (before : List Event) : Event → Prop
  | .copied _ m => m = (replay o k before).machine
  | .answered .capture answer =>
    ∃ earlier during who m, before = earlier ++ .called .capture :: during ∧ (∀ e ∈ during, e.Inner) ∧
      .copied who m ∈ during ∧ answer = .ok (some m)
  | _ => True

end Event

def beats (past : List Event) : List Core.Beat := past.filterMap Event.beat?

def brought (past : List Event) : List Request.Answer := past.filterMap Event.brings?

theorem beats_append (past es : List Event) : beats (past ++ es) = beats past ++ beats es := List.filterMap_append

theorem brought_append (past es : List Event) : brought (past ++ es) = brought past ++ brought es :=
  List.filterMap_append

theorem brought_of_inner {es : List Event} (h : ∀ e ∈ es, e.Inner) : brought es = [] := by
  refine List.filterMap_eq_nil_iff.mpr fun e he => ?_
  cases e with
  | answered q answer => exact (h _ he).elim
  | _ => rfl

/-! ### Steps and ticks alone -/

section

variable {o : Surroundings} {k k' : Core} {es : List Event}

/-- Steady events make of a core what their steps and ticks do. -/
theorem alike_play (h : k.Alike o o k') (hes : ∀ e ∈ es, e.Steady) :
    (replay o k es).Alike o o (k'.play o (beats es)) := by
  induction es using List.reverseRecOn with
  | nil => exact h
  | append_singleton es e ih =>
    replace ih := ih fun e' he' => hes e' (List.mem_append_left _ he')
    have he : e.Steady := hes e (List.mem_append_right _ (List.mem_singleton_self e))
    rw [replay_append, beats_append, Core.play_append]
    cases e with
    | stepped => exact (Core.alike_perform ih .step).2
    | ticked =>
      refine (Core.alike_perform ih .tick).2.of_same rfl ?_ ?_
      all_goals
        simp only [Core.play, beats, Event.beat?, List.filterMap_cons, List.filterMap_nil, List.foldl_cons,
          List.foldl_nil, Core.move, Core.beat]
        split <;> rfl
    | died | replaced | seated | cleared | lost => exact he.elim
    | _ => exact ih

theorem machine_replay (hes : ∀ e ∈ es, e.Steady) : (replay o k es).machine = (k.play o (beats es)).machine := by
  have hself : k.Alike o o k := ⟨rfl, fun _ => rfl, fun _ => rfl⟩
  exact (alike_play hself hes).machine_eq.symm

theorem wellFormed_play (hk : k.machine.WellFormed) (bs : List Core.Beat) : (k.play o bs).machine.WellFormed := by
  induction bs generalizing k with
  | nil => exact hk
  | cons b bs ih =>
    cases b with
    | step => exact ih (Session.wellFormed_step o (s := k.session) hk)
    | tick => exact ih (hk.of_eq rfl rfl)

end

/-! ### Requests that leave the machine alone -/

/-- The machine is not replaced by another. -/
def Request.Spares : Request → Prop
  | .reset _ | .restore _ | .load => False
  | _ => True

/-- Nobody replaces the machine, and every thread can be made. -/
def Turn.Spares : Turn → Prop
  | .call q => q.Spares
  | .refuse _ => False
  | _ => True

theorem Request.Spares.not_replaces {role : Request} (h : role.Spares) (m : Machine) : ¬ role.Replaces m := by
  rintro (rfl | rfl) <;> exact h

theorem Request.Spares.ne_reset {role : Request} (h : role.Spares) : ¬ ∃ program, role = .reset program := by
  rintro ⟨program, rfl⟩
  exact h

theorem Restarted.not_perished {before base es : List Event} {program : List UInt8}
    (h : Restarted before program base) (hes : ∀ e ∈ es, e.Steady) :
    ¬ Perished (base ++ es) := by
  obtain ⟨during, rfl, -⟩ := h
  rintro ⟨first, after, hsplit, hafter⟩
  rw [← List.cons_append, ← List.append_assoc, List.append_assoc] at hsplit
  rcases List.append_eq_append_iff.mp hsplit with ⟨middle, rfl, hnew⟩ | ⟨middle, hold, htail⟩
  · cases middle with
    | nil => cases hnew
    | cons e middle =>
      have hdied : Event.died ∈ es := by
        rw [List.singleton_append, List.cons_append, List.cons.injEq] at hnew
        rw [hnew.2]
        exact List.mem_append_right _ List.mem_cons_self
      exact hes _ hdied
  · cases middle with
    | nil => cases htail
    | cons e middle =>
      rw [List.cons_append, List.cons.injEq] at htail
      exact hafter (htail.2 ▸ List.mem_append_right _ List.mem_cons_self)

/-- Whoever waits for something else has asked for it after the run was begun. -/
theorem Restarted.asked_after {before base es earlier during : List Event} {program : List UInt8} {q : Request}
    (h : Restarted before program base) (hq : ∀ program, q ≠ .reset program)
    (hsplit : base ++ es = earlier ++ .called q :: during) (hinner : ∀ e ∈ during, e.Inner) :
    ∃ middle, es = middle ++ .called q :: during := by
  rcases List.append_eq_append_iff.mp hsplit with ⟨middle, -, hnew⟩ | ⟨middle, hold, htail⟩
  · exact ⟨middle, hnew⟩
  · cases middle with
    | nil => exact ⟨[], htail.symm⟩
    | cons e middle =>
      exfalso
      rw [List.cons_append, List.cons.injEq] at htail
      obtain ⟨rfl, rfl⟩ := htail
      obtain ⟨inner, rfl, hfirst⟩ := h
      rcases List.append_eq_append_iff.mp hold with ⟨between, -, hnew⟩ | ⟨between, -, hnew⟩
      · cases between with
        | nil =>
          rw [List.nil_append, List.cons.injEq] at hnew
          exact hq program (Event.called.inj hnew.1).symm
        | cons e between =>
          rw [List.cons_append, List.cons.injEq] at hnew
          have hmem : Event.called q ∈ inner ++ [.begun] := by
            rw [hnew.2]
            exact List.mem_append_right _ List.mem_cons_self
          rcases List.mem_append.mp hmem with hmem | hmem
          · exact hfirst _ hmem
          · cases List.mem_singleton.mp hmem
      · cases between with
        | nil =>
          rw [List.nil_append, List.cons.injEq] at hnew
          exact hq program (Event.called.inj hnew.1)
        | cons e between =>
          rw [List.cons_append, List.cons.injEq] at hnew
          have hmem : Event.called (.reset program) ∈ middle := by
            rw [hnew.2]
            exact List.mem_append_right _ List.mem_cons_self
          exact hinner _ (List.mem_append_left _ hmem)

/-! ### Turn after turn -/

/-- What there is to say of the events `es` that have happened since the past was `base`, when a run was begun with the
core `k`. -/
structure Scene.Unbroken (o : Surroundings) (k : Core) (base es : List Event) (s : Scene) : Prop where
  past : s.past = base ++ es
  tracks : Tracks o k es s.console
  each : Each (Event.Continues o k) es
  steady : ∀ e ∈ es, e.Steady
  refusal : s.console.refusal = 0
  captures : s.console.OnlyCaptures

namespace Scene.Unbroken

variable {sc : Scenario} {o : Surroundings} {k : Core} {earlier base es es' : List Event} {program : List UInt8}
  {s : Scene} {c : Console}

theorem machine_eq (h : s.Unbroken o k base es) : s.console.machine = (k.play o (beats es)).machine :=
  h.tracks.machine_eq.trans (machine_replay h.steady)

theorem not_breakdown (h : s.Unbroken o k base es) (hk : k.machine.WellFormed) {r : Runner}
    (hlive : s.console.runner = .live r) : (s.console.upcoming sc r).1 ≠ .breakdown := by
  have hwf : s.console.machine.WellFormed := by
    rw [h.machine_eq]
    exact wellFormed_play hk _
  refine Session.step_ne_breakdown sc.toSurroundings (s := s.console.session r.processor) ?_
  rw [Console.machine, Console.processor, hlive] at hwf
  exact hwf.sp_le

theorem append (h : s.Unbroken o k base es) (htracks : Tracks o k (es ++ es') c)
    (heach : Each (Event.Continues o k) (es ++ es')) (hes' : ∀ e ∈ es', e.Steady) (hrefusal : c.refusal = 0)
    (hcaptures : c.OnlyCaptures) : Unbroken o k base (es ++ es') ⟨c, s.past ++ es'⟩ where
  past := by rw [h.past, List.append_assoc]
  tracks := htracks
  each := heach
  steady e he := (List.mem_append.mp he).elim (h.steady e) (hes' e)
  refusal := hrefusal
  captures := hcaptures

theorem moves {k : Core} (h : s.Unbroken sc.toSurroundings k base es) (hk : k.machine.WellFormed)
    (hsurvives : sc.Only Happening.Survives) (hmoves : s.console.Moves sc c es') :
    Unbroken sc.toSurroundings k base (es ++ es') ⟨c, s.past ++ es'⟩ := by
  have htracks := h.tracks.moves hmoves
  have hrefusal := hmoves.refusal_eq.trans h.refusal
  have hplain (hevents : ∀ e ∈ es', e = .stepped ∨ e = .ticked ∨ ∃ f, e = .faulted f)
      (hcaptures : c.OnlyCaptures) : Unbroken sc.toSurroundings k base (es ++ es') ⟨c, s.past ++ es'⟩ := by
    refine h.append htracks (h.each.append_of_forall fun e he before => ?_) (fun e he => ?_) hrefusal hcaptures
    all_goals rcases hevents e he with rfl | rfl | ⟨f, rfl⟩ <;> trivial
  cases hmoves with
  | @copy r ticket jobs hlive hstage hjobs =>
    refine h.append htracks (h.each.snoc ?_) (by simp [Event.Steady]) hrefusal fun job hjob => ?_
    · rw [Event.Continues, ← h.tracks.machine_eq, Console.machine, Console.processor, hlive]
    · exact h.captures job (hjobs ▸ List.mem_cons_of_mem _ hjob)
  | @install r ticket m jobs hlive hstage hjobs =>
    cases h.captures (ticket, .restore m) (hjobs ▸ List.mem_cons_self)
  | die hlive hstage mode rate journal hmode hcause =>
    rcases hcause with hbreakdown | hdeath
    · exact absurd hbreakdown (h.not_breakdown hk hlive)
    · exact absurd hsurvives hdeath
  | leave =>
    refine hplain (List.forall_mem_nil _) fun job hjob => ?_
    cases hjob
  | pass | hush => exact hplain (List.forall_mem_nil _) h.captures
  | step | tick | fail => exact hplain (by simp) h.captures

theorem acts {role : Request} {a : Action} {x : a.Answer} (h : s.Unbroken o k base es) (hrole : role.Spares)
    (hfits : s.Fits sc role a) (hact : s.console.act a = some (x, c)) :
    Unbroken o k base (es ++ a.events x) (s.did a x c) := by
  have htracks := h.tracks.acts hfits hact
  have hrefusal := Console.refusal_act_zero h.refusal hact
  have hcaptures : c.OnlyCaptures := by
    intro job hjob
    rcases Console.jobs_or_post hact with hjobs | ⟨j, ticket, rfl, hjobs⟩
    · exact h.captures job (hjobs job hjob)
    · rcases hjobs job hjob with hold | rfl
      · exact h.captures job hold
      · cases j with
        | capture => rfl
        | restore m => exact absurd hfits.1 (hrole.not_replaces m)
  have hplain (hevents : ∀ e ∈ a.events x, e = .begun ∨ e = .givenUp ∨ ∃ f, e = .reported f) :
      Unbroken o k base (es ++ a.events x) (s.did a x c) := by
    refine h.append htracks (h.each.append_of_forall fun e he before => ?_) (fun e he => ?_) hrefusal hcaptures
    all_goals rcases hevents e he with rfl | rfl | ⟨f, rfl⟩ <;> trivial
  cases a with
  | captureParked =>
    refine h.append htracks (h.each.snoc ?_) (by simp [Action.events, Event.Steady]) hrefusal hcaptures
    cases hact
    exact (Console.machine_of_none hfits.2).symm.trans h.tracks.machine_eq
  | replaceParked m => exact absurd hfits.1 (hrole.not_replaces m)
  | park p | resetBoard => exact absurd hfits.1 hrole.ne_reset
  | spawnRunner =>
    rcases Console.of_spawnRunner hact with ⟨-, hrefused, -⟩ | ⟨rfl, -, -⟩
    · rw [h.refusal] at hrefused
      cases hrefused
    · exact hplain (by simp [Action.events])
  | spawnMetronome => exact hplain (by cases x <;> simp [Action.events])
  | note n => exact hplain (by cases n <;> simp [Action.events])
  | _ => exact hplain (by simp [Action.events])

theorem answered {q : Request} {answer : Request.Answer} {before : List Event} (h : s.Unbroken o k base es)
    (hbase : Restarted earlier program base) (hasks : q.Asks before s.past) (hmeets : q.Meets (deals before) answer s) :
    Unbroken o k base (es ++ [.answered q answer]) (s.add (.answered q answer)) := by
  have htracks : Tracks o k (es ++ [.answered q answer]) s.console := h.tracks.same (fun _ => rfl) rfl rfl rfl
  refine h.append htracks (h.each.snoc ?_) (by simp [Event.Steady]) h.refusal h.captures
  cases q with
  | capture =>
    obtain ⟨during, hpast, hinner⟩ := hasks
    have hsettles := hmeets.settles hpast
    rw [h.past] at hpast
    obtain ⟨earlier, hes⟩ := hbase.asked_after (q := .capture) nofun hpast hinner
    rcases answer with e | x
    · have hnot := hbase.not_perished h.steady
      rw [← h.past] at hnot
      exact absurd (hmeets.perished (congrArg Except.error hsettles.1)) hnot
    · obtain ⟨who, m, rfl, hdeals⟩ := hsettles
      have hmem : Event.copied who m ∈ deals during := by
        rw [hdeals]
        exact List.mem_singleton_self _
      exact ⟨earlier, during, who, m, hes, hinner, List.mem_of_mem_filter hmem, rfl⟩
  | _ => trivial

/-- **One turn** of those that spare the machine. -/
theorem goes {k : Core} {s' : Scene} (hbase : Restarted earlier program base) (hk : k.machine.WellFormed)
    (hsurvives : sc.Only Happening.Survives) (h : ∃ es, s.Unbroken sc.toSurroundings k base es)
    (hgoes : s.Goes sc Turn.Spares s') : ∃ es, s'.Unbroken sc.toSurroundings k base es := by
  obtain ⟨es, h⟩ := h
  cases hgoes with
  | stays => exact ⟨es, h⟩
  | moves hwhen hmoves => exact ⟨_, h.moves hk hsurvives hmoves⟩
  | acts hrole hasked hfits hact => exact ⟨_, h.acts hrole hfits hact⟩
  | @called q hq hrests =>
    have htracks : Tracks _ k (es ++ [.called q]) s.console := h.tracks.same (fun _ => rfl) rfl rfl rfl
    exact ⟨_, h.append htracks (h.each.snoc trivial) (by simp [Event.Steady]) h.refusal h.captures⟩
  | answered hasks hmeets => exact ⟨_, h.answered hbase hasks hmeets⟩
  | refused hn => exact hn.elim
  | filed hf hrests => exact ⟨es, h.past, h.tracks, h.each, h.steady, h.refusal, h.captures⟩

end Scene.Unbroken

/-! ### Moments of an execution -/

/-- The machine after the first `n` steps and ticks of an execution. -/
def Core.moment (o : Surroundings) (k : Core) (bs : List Core.Beat) (n : Nat) : Machine :=
  (k.play o (bs.take n)).machine

theorem Core.moment_append {o : Surroundings} {k : Core} {bs bs' : List Core.Beat} {n : Nat} (h : n ≤ bs.length) :
    k.moment o (bs ++ bs') n = k.moment o bs n := by
  unfold moment
  rw [List.take_append_of_le_length h]

/-- What captures have brought are moments of the execution, in order. -/
def Traces (o : Surroundings) (k : Core) (es : List Event) : Prop :=
  ∃ moments : List Nat, moments.Pairwise (· ≤ ·) ∧ (∀ n ∈ moments, n ≤ (beats es).length) ∧
    brought es = moments.map fun n => .ok (some (k.moment o (beats es) n))

namespace Traces

variable {o : Surroundings} {k : Core} {es es' : List Event}

theorem append (h : Traces o k es) (hes' : brought es' = []) : Traces o k (es ++ es') := by
  obtain ⟨moments, hsorted, hbound, hbrought⟩ := h
  refine ⟨moments, hsorted, fun n hn => ?_, ?_⟩
  · rw [beats_append, List.length_append]
    exact Nat.le_add_right_of_le (hbound n hn)
  · rw [brought_append, hes', List.append_nil, hbrought]
    refine List.map_congr_left fun n hn => ?_
    rw [beats_append, Core.moment_append (hbound n hn)]

/-- A copy that was made after some of the events, and brought after the last one. -/
theorem answered (h : Traces o k es) (hes : ∀ e ∈ es, e.Steady) (hes' : brought es' = []) :
    Traces o k (es ++ es' ++ [.answered .capture (.ok (some (replay o k es).machine))]) := by
  obtain ⟨moments, hsorted, hbound, hbrought⟩ := h
  have hnow : k.moment o (beats es) (beats es).length = (replay o k es).machine := by
    rw [Core.moment, List.take_length, machine_replay hes]
  have hafter (n : Nat) (hn : n ≤ (beats es).length) :
      k.moment o (beats (es ++ es' ++ [.answered .capture (.ok (some (replay o k es).machine))])) n =
        k.moment o (beats es) n := by
    rw [beats_append, beats_append, List.append_assoc, Core.moment_append hn]
  have hle (n : Nat) (hn : n ∈ moments ++ [(beats es).length]) : n ≤ (beats es).length := by
    rcases List.mem_append.mp hn with hn | hn
    · exact hbound n hn
    · exact (List.mem_singleton.mp hn).le
  refine ⟨moments ++ [(beats es).length], ?_, fun n hn => ?_, ?_⟩
  · refine List.pairwise_append.mpr ⟨hsorted, List.pairwise_singleton _ _, fun n hn n' hn' => ?_⟩
    rw [List.mem_singleton.mp hn']
    exact hbound n hn
  · rw [beats_append, beats_append, List.length_append, List.length_append, Nat.add_assoc]
    exact Nat.le_add_right_of_le (hle n hn)
  · rw [List.map_congr_left fun n hn => congrArg (fun m => Except.ok (some m)) (hafter n (hle n hn)), List.map_append,
      ← hbrought, List.map_singleton, hnow, brought_append, brought_append, hes', List.append_nil]
    rfl

/-- **Copies are moments** of one execution.  The induction is on the number of events: what a capture has brought was
copied after fewer of them. -/
theorem of_each (heach : Each (Event.Continues o k) es) (hes : ∀ e ∈ es, e.Steady) : Traces o k es := by
  induction hn : es.length using Nat.strong_induction_on generalizing es with
  | _ n ih =>
  rcases List.eq_nil_or_concat' es with rfl | ⟨before, e, rfl⟩
  · exact ⟨[], .nil, nofun, rfl⟩
  have hearlier (earlier later : List Event) (h : earlier ++ later = before) : Traces o k earlier := by
    subst h
    refine ih earlier.length ?_ (fun a e' b hsplit => heach a e' (b ++ later ++ [e]) ?_) (fun e' he' => ?_) rfl
    · simp only [← hn, List.length_append, List.length_singleton]
      omega
    · simp only [hsplit, List.append_assoc, List.cons_append]
    · exact hes e' (List.mem_append_left _ (List.mem_append_left _ he'))
  cases hbrings : e.brings? with
  | none => exact (hearlier before [] (List.append_nil before)).append (by simp [brought, hbrings])
  | some answer =>
    obtain rfl : e = .answered .capture answer := by
      cases e with
      | answered q answer =>
        cases q with
        | capture =>
          cases hbrings
          rfl
        | _ => cases hbrings
      | _ => cases hbrings
    obtain ⟨earlier, during, who, m, rfl, hinner, hcopied, rfl⟩ := heach.of_snoc.2
    obtain ⟨first, last, rfl⟩ := List.append_of_mem hcopied
    have hm : m = (replay o k (earlier ++ .called .capture :: first)).machine :=
      heach.of_snoc.1 (earlier ++ .called .capture :: first) (.copied who m) last (by simp)
    have hlast : brought (.copied who m :: last) = [] :=
      brought_of_inner fun e he => hinner e (List.mem_append_right _ he)
    have hsplit : earlier ++ .called .capture :: first ++ .copied who m :: last =
        earlier ++ .called .capture :: (first ++ .copied who m :: last) := by simp
    have h := (hearlier _ _ hsplit).answered
      (fun e he => hes e (List.mem_append_left _ (hsplit ▸ List.mem_append_left _ he))) hlast
    rw [← hm] at h
    simpa using h

end Traces

namespace Office

theorem allows_of_start {program : List UInt8} {a : Action} (h : Request.start.Allows a) :
    (Request.reset program).Allows a := by
  cases a with
  | park | resetBoard =>
    obtain ⟨_, hstart⟩ := h
    cases hstart
  | post j =>
    cases j with
    | capture => rcases h with h | h <;> cases h
    | restore m => rcases h with h | h <;> cases h
  | captureParked | replaceParked => rcases h with h | h <;> cases h
  | collect => rcases h with (h | h) | ⟨m, h | h⟩ <;> cases h
  | _ => trivial

/-- **A machine is one continuous execution.**  A program that fits is reset into an office with any history, and after
that nobody replaces the machine; no call fails and every thread can be made.  Then the reset is still on its way, or it
has begun a run with the program's processor, silent timers and a blank screen, and all that happened to the machine
since is one sequence of steps and ticks from there, however many runs have made it up: what captures have brought are
moments of that sequence, in order, and the machine is now at its end. -/
theorem continuous {o : Office} (ho : o.Reachable) (hidle : o.task = none) (hrefusal : o.console.refusal = 0)
    {program : List UInt8} {p : Processor} (hp : Processor.withProgram? program = some p) {sc : Scenario}
    (hapart : sc.Only Happening.Apart) (hsurvives : sc.Only Happening.Survives) {turns : List Turn}
    (hturns : ∀ t ∈ turns, t.Spares) :
    let called := o.advance sc (.call (.reset program))
    (Request.reset program).Asks o.past (called.run sc turns).past ∨
      ∃ before after, turns = before ++ after ∧
        let begun := called.run sc before
        begun.Fresh p ∧ Restarted o.past program begun.past ∧
          ∃ es, (called.run sc turns).past = begun.past ++ es ∧
            Traces sc.toSurroundings (begun.console.core p) es ∧
            (called.run sc turns).console.machine =
              ((begun.console.core p).play sc.toSurroundings (beats es)).machine := by
  obtain ⟨a, hrests⟩ := ho.rests hidle
  have hbirth := Order.reset_births sc hp ⟨a, hrests.add (Event.plain_called (.reset program))⟩ hrefusal
  simp only [advance_call sc hidle]
  rcases leads_run hapart hbirth (.reset program) turns with
    ⟨s, a, next, hrun, hext⟩ | ⟨before, after, s, rest, rfl, hrun, ⟨rfl, hborn⟩, hext⟩
  · rw [hrun]
    exact .inl hext.asks
  · have hmachine : (s.console.core p).machine = .ofProcessor p := by
      rw [← hborn.machine, Console.machine, hborn.processor]
      rfl
    have hwf : (s.console.core p).machine.WellFormed := by
      rw [hmachine]
      exact Board.wellFormed_reset (b := {}) (by rw [Processor.sp_of_withProgram? hp]; decide)
    have hsound : (busy s (.reset program) Order.afterBirth).Sound sc Turn.Spares :=
      .busy (show Turn.Spares (.call .start) from trivial) (fun _ h => allows_of_start h) hext.asks
        ((Order.afterBirth_secures sc .start program hborn).mono fun _ _ h => h.2) (.refl s)
    have hnew : s.Unbroken sc.toSurroundings (s.console.core p) s.past [] := by
      refine ⟨(List.append_nil _).symm, ?_, .nil, List.forall_mem_nil _, hborn.refusal, ?_⟩
      · show Core.Alike _ (s.console.core p) _ _
        rw [hborn.processor]
        exact ⟨rfl, fun _ => rfl, fun _ => rfl⟩
      · rw [Console.OnlyCaptures, hborn.mail]
        exact List.forall_mem_nil _
    obtain ⟨-, es, hunbroken⟩ := hsound.run hapart (fun t ht => hturns t (List.mem_append_right _ ht))
      (J := fun s' => ∃ es, s'.Unbroken sc.toSurroundings (s.console.core p) s.past es)
      (fun _ _ h hgoes => Scene.Unbroken.goes (hext.restarted hborn) hwf hsurvives h hgoes) ⟨[], hnew⟩
    refine .inr ⟨before, after, rfl, ?_⟩
    rw [run_append, hrun]
    refine ⟨hborn.fresh, hext.restarted hborn, es, hunbroken.past, ?_, hunbroken.machine_eq⟩
    exact .of_each hunbroken.each hunbroken.steady

def rounds (n : Nat) : List Turn := (List.replicate n [.desk, .runner true, .metronome true false]).flatten

theorem spares_rounds (n : Nat) : ∀ t ∈ rounds n, t.Spares := by
  intro t ht
  obtain ⟨round, hround, ht⟩ := List.mem_flatten.mp ht
  rw [List.eq_of_mem_replicate hround] at ht
  simp only [List.mem_cons, List.not_mem_nil, or_false] at ht
  rcases ht with rfl | rfl | rfl <;> trivial

/-- A run is stopped and another started between two captures. -/
def stoppedInBetween : List Turn :=
  rounds 20 ++ .call .capture :: rounds 6 ++ .call .stop :: rounds 12 ++ .call .start :: rounds 14 ++
    .call .capture :: rounds 6

theorem continuous_stoppedInBetween :
    alone.Only Happening.Survives ∧ (∀ t ∈ stoppedInBetween, t.Spares) ∧
      let called := (Office.new { cycleRate := 50 }).advance alone (.call (.reset [0x70, 0x01, 0x12, 0x00]))
      (brought (called.run alone stoppedInBetween).past).length = 2 ∧
      ∃ p, Processor.withProgram? [0x70, 0x01, 0x12, 0x00] = some p ∧
        ((Request.reset [0x70, 0x01, 0x12, 0x00]).Asks [] (called.run alone stoppedInBetween).past ∨
          ∃ before after, stoppedInBetween = before ++ after ∧
            let begun := called.run alone before
            begun.Fresh p ∧ Restarted [] [0x70, 0x01, 0x12, 0x00] begun.past ∧
              ∃ es, (called.run alone stoppedInBetween).past = begun.past ++ es ∧
                Traces alone.toSurroundings (begun.console.core p) es ∧
                (called.run alone stoppedInBetween).console.machine =
                  ((begun.console.core p).play alone.toSurroundings (beats es)).machine) := by
  have hturns : ∀ t ∈ stoppedInBetween, t.Spares := by
    intro t ht
    simp only [stoppedInBetween, List.mem_append, List.mem_cons] at ht
    rcases ht with (((ht | rfl | ht) | rfl | ht) | rfl | ht) | rfl | ht
    all_goals first | exact spares_rounds _ t ht | trivial
  obtain ⟨p, hp⟩ : ∃ p, Processor.withProgram? [0x70, 0x01, 0x12, 0x00] = some p :=
    Option.isSome_iff_exists.mp (by decide)
  refine ⟨only_alone _, hturns, by decide +kernel, p, hp, ?_⟩
  exact continuous (.new { cycleRate := 50 }) rfl rfl hp (only_alone _) (only_alone _) hturns

end Office

end ChipEight
