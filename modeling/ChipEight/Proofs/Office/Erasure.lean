import ChipEight.Proofs.Office.Progress
import ChipEight.Proofs.Office.Twins

/-!
# A reset erases the past

Under fair turns `reset` comes to an end whatever the office has behind it, and the run that it begins shows nothing of
that.

* `Scene.Born.twins` : two runs that were begun by resets to the same program cannot be told apart.
* `Office.exists_born` : a reset begins a run, and succeeds.
* `Office.erased` : two offices with any histories.
-/

namespace ChipEight

open Scene (Fits)

/-- Two new runs of one processor, with the same settings, rate and file, that hear the same. -/
theorem Scene.Born.twins {sc sc' : Scenario} {s s' : Scene} {ds ds' : List Event} {p : Processor} (h : s.Born ds p)
    (h' : s'.Born ds' p) (hsettings : s'.console.desk.settings = s.console.desk.settings)
    (hrate : s'.console.board.rate = s.console.board.rate) (hfile : s'.console.file = s.console.file)
    (hechoes : sc.Echoes s.console.tally sc' s'.console.tally) : s.console.Twins sc sc' s'.console := by
  have hmetronome := h.metronome
  have hmetronome' := h'.metronome
  obtain ⟨-, -, hboard, hrunner, hmail, hdesk, hrefusal⟩ := h
  obtain ⟨-, -, hboard', hrunner', hmail', hdesk', hrefusal'⟩ := h'
  refine ⟨s'.console.tally, s'.console.journal, ?_, hechoes⟩
  rw [hsettings] at hrunner' hdesk'
  rw [hrate] at hboard'
  generalize s'.console = c' at *
  obtain ⟨board', tally', mail', runner', metronome', desk', file', refusal', journal'⟩ := c'
  simp only at *
  rw [hboard', ← hboard, hmail', ← hmail, hrunner', ← hrunner, hmetronome', ← hmetronome, hdesk', ← hdesk, hfile,
    hrefusal', ← hrefusal]

/-- A reset waits only for clocks that are on their way out. -/
theorem Scene.Fits.yields {sc : Scenario} (hsc : sc.Only Happening.KeepsMode) {program : List UInt8} {s : Scene}
    {a : Action} (h : s.Fits sc (.reset program) a) : s.console.Yields a := by
  cases a with
  | collect ticket => rcases h.1 with (hcopies | hcopies) | ⟨m, hreplaces | hreplaces⟩ <;> contradiction
  | joinRunner | joinMetronome => exact h.2 hsc
  | _ => trivial

namespace Office

variable {sc : Scenario} {σ : Nat → Turn} {o : Office} {program : List UInt8} {p : Processor}

/-- **A reset succeeds.**  It comes to begin a run, and then to its answer. -/
theorem exists_born (ho : o.Reachable) (hidle : o.task = none) (hrefusal : o.console.refusal = 0)
    (hp : Processor.withProgram? program = some p) (hapart : sc.Only Happening.Apart)
    (hmode : sc.Only Happening.KeepsMode) (hfair : Fair σ) :
    ∃ n s, (o.advance sc (.call (.reset program))).along sc σ n = busy s (.reset program) Order.afterBirth ∧
      s.Born (deals o.past) p ∧ Extends (o.add (.called (.reset program))) s ∧
      ∃ m s', Extends s s' ∧ (busy s (.reset program) Order.afterBirth).along sc (later σ n) m =
        { toScene := s'.add (.answered (.reset program) (.ok none)) } := by
  obtain ⟨a, hrests⟩ := ho.rests hidle
  have hbirth := Order.reset_births sc hp ⟨a, hrests.add (Event.plain_called (.reset program))⟩ hrefusal
  rw [advance_call sc hidle]
  obtain ⟨n, s, rest, halong, ⟨rfl, hborn⟩, hext⟩ :=
    leads_along hapart hfair (fun _ _ hfits => hfits.yields hmode) hbirth (.reset program)
  have hanswer := Order.afterBirth_secures sc (.reset program) program hborn
  obtain ⟨k, s₁, rest, halong₁, ⟨answer, rfl, rfl, -⟩, hext₁⟩ :=
    leads_along hapart (hfair.later n) (fun _ _ hfits => hfits.yields hmode) hanswer (.reset program)
  obtain ⟨j, s₂, hdrift, halong₂⟩ :=
    answers_soon hapart ((hfair.later n).later k) (.reset program) (.ok none)
  refine ⟨n, s, halong, hborn, hext, k + j, s₂, hext₁.trans (.of_drifts hdrift), ?_⟩
  rw [along_add, halong₁, halong₂]

/-- A reset of `o` has led to the office `begun`, in which a run of `p` starts, and succeeds later. -/
structure Renews (sc : Scenario) (σ : Nat → Turn) (program : List UInt8) (p : Processor) (o begun : Office) : Prop where
  fresh : begun.Fresh p
  restarted : Restarted o.past program begun.past
  succeeds : ∃ n, begun = (o.advance sc (.call (.reset program))).along sc σ n ∧
    ∃ m during, (begun.along sc (later σ n) m).past =
      begun.past ++ during ++ [.answered (.reset program) (.ok none)] ∧ ∀ e ∈ during, e.Inner

theorem renews_of_born {n m : Nat} {s s' : Scene}
    (halong : (o.advance sc (.call (.reset program))).along sc σ n = busy s (.reset program) Order.afterBirth)
    (hborn : s.Born (deals o.past) p) (hext : Extends (o.add (.called (.reset program))) s) (hext' : Extends s s')
    (hanswered : (busy s (.reset program) Order.afterBirth).along sc (later σ n) m =
      { toScene := s'.add (.answered (.reset program) (.ok none)) }) :
    Renews sc σ program p o (busy s (.reset program) Order.afterBirth) where
  fresh := hborn.fresh
  restarted := hext.restarted hborn
  succeeds := by
    obtain ⟨during, hpast, hinner⟩ := hext'
    refine ⟨n, halong.symm, m, during, ?_, hinner⟩
    rw [hanswered, Scene.add]
    dsimp only
    rw [hpast]
    rfl

/-- **A reset erases all history.**  Two offices, each with any history, are reset to the same program of at most 3584
bytes, when every thread can be made and everybody takes a turn again and again.  Both resets come to begin a run: the
run state is `running`, no fault is recorded or waits to be told, timers and screen are cleared, and the runner starts
with the program's processor; and both succeed.  From there, if settings, rate and state file are the same and the
surroundings answer and do the same, the same is remembered of whatever turns are taken, answers to requests included,
and boards, machines and state files are the same. -/
theorem erased {o o' : Office} (ho : o.Reachable) (ho' : o'.Reachable) (hidle : o.task = none) (hidle' : o'.task = none)
    (hrefusal : o.console.refusal = 0) (hrefusal' : o'.console.refusal = 0) {program : List UInt8}
    (hlength : program.length ≤ 3584) {sc sc' : Scenario} (hapart : sc.Only Happening.Apart)
    (hapart' : sc'.Only Happening.Apart) (hmode : sc.Only Happening.KeepsMode) (hmode' : sc'.Only Happening.KeepsMode)
    {σ σ' : Nat → Turn} (hfair : Fair σ) (hfair' : Fair σ') :
    ∃ p begun begun', Processor.withProgram? program = some p ∧ Renews sc σ program p o begun ∧
      Renews sc' σ' program p o' begun' ∧
      (begun'.console.desk.settings = begun.console.desk.settings →
        begun'.console.board.rate = begun.console.board.rate → begun'.console.file = begun.console.file →
        sc.Echoes begun.console.tally sc' begun'.console.tally → ∀ turns,
          (∃ es, (begun.run sc turns).past = begun.past ++ es ∧ (begun'.run sc' turns).past = begun'.past ++ es) ∧
            (begun'.run sc' turns).console.board = (begun.run sc turns).console.board ∧
            (begun'.run sc' turns).console.machine = (begun.run sc turns).console.machine ∧
            (begun'.run sc' turns).console.file = (begun.run sc turns).console.file) := by
  obtain ⟨p, hp⟩ : ∃ p, Processor.withProgram? program = some p := ⟨_, if_pos hlength⟩
  obtain ⟨n, s, halong, hborn, hext, m, s₁, hext₁, hanswered⟩ := exists_born ho hidle hrefusal hp hapart hmode hfair
  obtain ⟨n', s', halong', hborn', hext', m', s₁', hext₁', hanswered'⟩ :=
    exists_born ho' hidle' hrefusal' hp hapart' hmode' hfair'
  refine ⟨p, _, _, hp, renews_of_born halong hborn hext hext₁ hanswered,
    renews_of_born halong' hborn' hext' hext₁' hanswered', fun hsettings hrate hfile hechoes turns => ?_⟩
  have hnow : (busy s (.reset program) Order.afterBirth).Twins sc s.past sc' s'.past
      (busy s' (.reset program) Order.afterBirth) :=
    ⟨hborn.twins hborn' hsettings hrate hfile hechoes, rfl, [], (List.append_nil _).symm, (List.append_nil _).symm⟩
  have hthen := hnow.run turns
  obtain ⟨tally, journal, hconsole, -⟩ := hthen.console
  refine ⟨hthen.past, ?_, ?_, ?_⟩
  all_goals rw [hconsole]
  rfl

def inTurn (n : Nat) : Turn :=
  match n % 3 with
  | 0 => .desk
  | 1 => .runner true
  | _ => .metronome true false

theorem fair_inTurn : Fair inTurn where
  desk n := ⟨3 * n, by omega, by simp [inTurn]⟩
  runner n := ⟨3 * n + 1, true, by omega, by simp [inTurn]⟩
  metronome n := ⟨3 * n + 2, true, false, by omega, by simp [inTurn]⟩

/-- A program that returns from where nobody called has ended its run with a fault, and nobody was told. -/
def faulted : Office := (Office.new {}).run alone (session (.reset [0x00, 0xEE]))

theorem erased_faulted :
    faulted.Reachable ∧ faulted.task = none ∧ unreported faulted.past = [.stackUnderflow 0x200] ∧ Fair inTurn ∧
      ∃ p begun begun', Processor.withProgram? [0x12, 0x00] = some p ∧
        Renews alone inTurn [0x12, 0x00] p (.new {}) begun ∧ Renews alone inTurn [0x12, 0x00] p faulted begun' ∧
          (begun'.console.desk.settings = begun.console.desk.settings →
            begun'.console.board.rate = begun.console.board.rate → begun'.console.file = begun.console.file →
            alone.Echoes begun.console.tally alone begun'.console.tally → ∀ turns,
              (∃ es, (begun.run alone turns).past = begun.past ++ es ∧
                (begun'.run alone turns).past = begun'.past ++ es) ∧
                (begun'.run alone turns).console.board = (begun.run alone turns).console.board ∧
                (begun'.run alone turns).console.machine = (begun.run alone turns).console.machine ∧
                (begun'.run alone turns).console.file = (begun.run alone turns).console.file) := by
  have hreachable : faulted.Reachable := .run (.new {}) rfl (only_alone _) _
  have hidle : faulted.task = none := Option.isNone_iff_eq_none.mp (by decide +kernel)
  refine ⟨hreachable, hidle, by decide +kernel, fair_inTurn, ?_⟩
  exact erased (.new {}) hreachable rfl hidle rfl (by decide +kernel) (by decide) (only_alone _) (only_alone _)
    (only_alone _) (only_alone _) fair_inTurn fair_inTurn

end Office

end ChipEight
