import ChipEight.Proofs.Office.History

/-!
# From a reset to a new run

What `reset` leaves when `start` has made the two threads.

* `Scene.Fresh` : a runner was made of a fresh processor at a cleared board, and nothing is left of what was before;
  `Scene.Born` says in full how the console stands.
* `Order.reset_births` : a reset leads there from wherever the desk was at rest.
* `Office.leads_run` : an office with such a request comes there or is still on the way, whoever takes turns.
-/

namespace ChipEight

open Procedure (Secures Leads)
open Scene (Fits Stands Rests Firm)

/-- A runner was just made of the processor `p`, the board is cleared, and there is nothing else. -/
structure Scene.Born (ds : List Event) (p : Processor) (s : Scene) : Prop where
  stands : s.Stands ds false true false .onBoard
  begun : ∃ past, s.past = past ++ [.begun]
  board : s.console.board = { mode := .running, rate := s.console.board.rate }
  runner : s.console.runner = .live { processor := p, batchRate := s.console.desk.settings.batchRate }
  mail : s.console.mail = {}
  desk : s.console.desk = { settings := s.console.desk.settings }
  refusal : s.console.refusal = 0

/-- A run of the processor `p` starts, and nothing is left of what was before. -/
structure Scene.Fresh (p : Processor) (s : Scene) : Prop where
  mode : s.console.board.mode = .running
  fault : s.console.board.fault = none
  pending : s.console.desk.pending = none
  unreported : unreported s.past = []
  machine : s.console.machine = .ofProcessor p
  runner : s.console.runner = .live { processor := p, batchRate := s.console.desk.settings.batchRate }

/-- Since the past was `before`, somebody has asked for a reset, and a run was begun for it. -/
def Restarted (before : List Event) (program : List UInt8) (past : List Event) : Prop :=
  ∃ during, past = before ++ .called (.reset program) :: (during ++ [.begun]) ∧ ∀ e ∈ during, e.Inner

namespace Scene.Born

variable {ds : List Event} {p : Processor} {s : Scene}

theorem metronome (h : s.Born ds p) : s.console.metronome = .none := Thread.here_eq_false.mp h.stands.metronome

theorem processor (h : s.Born ds p) : s.console.processor = p := by
  unfold Console.processor
  rw [h.runner]

theorem machine (h : s.Born ds p) : s.console.machine = .ofProcessor p := by
  unfold Console.machine
  rw [h.processor, h.board]
  rfl

theorem unreported (h : s.Born ds p) : ChipEight.unreported s.past = [] := by
  have hbooks : s.OnBoard := h.stands.books
  have hwaiting : (account s.past).waiting = [] := by
    rw [← List.getLast?_eq_none_iff, hbooks.pending, h.desk]
  rw [ChipEight.unreported, Account.unreported, hwaiting, hbooks.latest, h.board]
  rfl

theorem fresh (h : s.Born ds p) : s.Fresh p where
  mode := by rw [h.board]
  fault := by rw [h.board]
  pending := by rw [h.desk]
  unreported := h.unreported
  machine := h.machine
  runner := h.runner

end Scene.Born

namespace Console

theorem refusal_act_zero {c c' : Console} {a : Action} {x : a.Answer} (hzero : c.refusal = 0)
    (hact : c.act a = some (x, c')) : c'.refusal = 0 := by
  rcases (footprint_of_act hact).refusal with h | h
  · exact h.trans hzero
  · rw [h, hzero]

end Console

/-! ### On the way -/

def Extends (s s' : Scene) : Prop := ∃ es, s'.past = s.past ++ es ∧ ∀ e ∈ es, e.Inner

namespace Extends

variable {sc : Scenario} {s s' s'' : Scene}

theorem refl (s : Scene) : Extends s s := ⟨[], (List.append_nil _).symm, nofun⟩

theorem trans (h : Extends s s') (h' : Extends s' s'') : Extends s s'' := by
  obtain ⟨es, hes, hinner⟩ := h
  obtain ⟨es', hes', hinner'⟩ := h'
  refine ⟨es ++ es', by rw [hes', hes, List.append_assoc], fun e he => ?_⟩
  rcases List.mem_append.mp he with he | he
  · exact hinner e he
  · exact hinner' e he

theorem did {a : Action} {x : a.Answer} {c : Console} (h : Extends s s') : Extends s (s'.did a x c) :=
  h.trans ⟨a.events x, rfl, fun _ he => a.inner_of_mem_events he⟩

theorem of_drifts (h : s.Drifts sc s') : Extends s s' :=
  h.induct (fun hs hmoves => hs.trans ⟨_, rfl, hmoves.inner⟩) (.refl s)

theorem asks {q : Request} (h : Extends (s.add (.called q)) s') : q.Asks s.past s'.past := by
  obtain ⟨during, hpast, hinner⟩ := h
  refine ⟨during, ?_, hinner⟩
  rw [hpast, Scene.add, List.append_assoc]
  rfl

theorem restarted {program : List UInt8} {ds : List Event} {p : Processor}
    (h : Extends (s.add (.called (.reset program))) s') (hborn : s'.Born ds p) :
    Restarted s.past program s'.past := by
  obtain ⟨es, hpast, hinner⟩ := h
  obtain ⟨before, hbegun⟩ := hborn.begun
  rw [Scene.add] at hpast
  rcases List.eq_nil_or_concat' es with rfl | ⟨during, e, rfl⟩
  · rw [List.append_nil, hbegun] at hpast
    cases (List.append_inj' hpast rfl).2
  · rw [hbegun, ← List.append_assoc] at hpast
    cases (List.append_inj' hpast rfl).2
    refine ⟨during, ?_, fun e he => hinner e (List.mem_append_left _ he)⟩
    rw [hbegun, (List.append_inj' hpast rfl).1]
    simp

end Extends

/-! ### A reset -/

namespace Order

variable {sc : Scenario} {s : Scene} {ds : List Event} {program : List UInt8} {p : Processor}

/-- Ready, the desk makes the runner. -/
theorem Ready.births (h : Ready ds p s) (hzero : s.console.refusal = 0) {made : Bool} {c : Console}
    (hact : s.console.act .spawnRunner = some (made, c)) : made = true ∧ (s.did .spawnRunner made c).Born ds p := by
  have hfault : s.console.board.fault = none := by rw [h.board]
  obtain ⟨hstands, hmade⟩ := h.stands.spawnsRunner hfault hact
  obtain ⟨rfl, hzero'⟩ := hmade hzero
  rcases Console.of_spawnRunner hact with ⟨hmade, -⟩ | ⟨-, -, rfl⟩
  · cases hmade
  · refine ⟨rfl, hstands, ⟨s.past, rfl⟩, h.board, ?_, rfl, ?_, hzero'⟩
    · show Thread.live _ = _
      rw [h.parked]
      rfl
    · have hattached := h.stands.attached
      have hpending := h.pending
      show ({ s.console.desk with parked := .powerOn } : Desk) = { settings := s.console.desk.settings }
      simp only [hattached, hpending]

def afterBirth : Procedure Request.Answer := (do accompany; return none : Op (Option Machine)).run

/-- **A reset leads to a new run**, if the program fits and no thread is refused. -/
theorem reset_births (sc : Scenario) (hp : Processor.withProgram? program = some p) (h : s.Rests ds)
    (hzero : s.console.refusal = 0) :
    (Request.reset program).order.run.Leads sc (Fits sc (.reset program))
      (fun rest s => rest = afterBirth ∧ s.Born ds p) s := by
  have hready := (reset_leads sc hp ⟨program, rfl⟩ h).keeps (J := fun s => s.console.refusal = 0) hzero
    (fun hzero hmoves => hmoves.refusal_eq.trans hzero) (fun hzero _ hact => Console.refusal_act_zero hzero hact)
  refine Leads.bind (p := (reset program).run) hready fun rest s₁ hend => ?_
  obtain ⟨⟨rfl, hready⟩, hzero⟩ := hend
  refine Leads.alone (K := fun made s => made = true ∧ s.Born ds p) hready.stands ⟨trivial, hready.stands.eq_none⟩
    (fun made c hact => hready.births hzero hact) fun made s₂ ⟨hmade, hborn⟩ => ?_
  subst hmade
  exact .here ⟨rfl, hborn⟩

/-- **A run that has begun is accompanied**, and then the desk is at rest. -/
theorem afterBirth_secures (sc : Scenario) (role : Request) (program : List UInt8) (h : s.Born ds p) :
    afterBirth.Secures sc (Fits sc role)
      (fun answer s => answer = .ok none ∧ (Request.reset program).Meets ds answer s) s := by
  refine Secures.andThen (accompany_secures h.stands) (fun _ s₁ h₁ => ?_) fun e s₁ h₁ => ?_
  · exact Secures.done ⟨rfl, meets_of_rests ⟨rfl, rfl⟩ h₁.1⟩
  · cases h₁.2.2 h.refusal

end Order

/-! ### Turns of others -/

namespace Scene

/-- The scene when the clock has moved whose turn it is, if it is a clock's turn. -/
def clocked (sc : Scenario) (s : Scene) : Turn → Scene
  | .runner due =>
    match s.console.runner with
    | .live r =>
      let c := s.console.runnerMove sc due r
      ⟨c, s.past ++ r.events s.console c⟩
    | _ => s
  | .metronome due fatal =>
    match s.console.metronome with
    | .live m => ⟨s.console.metronomeMove { sc with silencingKills := fatal } due m, s.past ++ m.events⟩
    | _ => s
  | _ => s

theorem Drifts.clocked {sc : Scenario} {s s' : Scene} (h : s.Drifts sc s') (hsc : sc.Only Happening.Apart) (t : Turn) :
    s.Drifts sc (s'.clocked sc t) := by
  cases t with
  | runner due =>
    simp only [Scene.clocked]
    split
    · next r hlive => exact h.trans (.of_moves (Console.moves_runner hsc hlive due))
    · exact h
  | metronome due fatal =>
    simp only [Scene.clocked]
    split
    · next m hlive => exact h.trans (.of_moves (Console.moves_metronome hlive fatal due))
    · exact h
  | desk | call | refuse | file => exact h

theorem file_clocked {sc : Scenario} (hsc : sc.Only Happening.Apart) (s : Scene) (t : Turn) :
    (s.clocked sc t).console.file = s.console.file := by
  have hdrift : s.Drifts sc (s.clocked sc t) := (Drifts.refl s).clocked hsc t
  exact hdrift.induct (P := fun s' => s'.console.file = s.console.file) (fun h hmoves => hmoves.file_eq.trans h) rfl

end Scene

namespace Office

variable {sc : Scenario} {s s' : Scene}

theorem run_append (sc : Scenario) (o : Office) (turns turns' : List Turn) :
    o.run sc (turns ++ turns') = (o.run sc turns).run sc turns' := List.foldl_append

def busy (s : Scene) (q : Request) (p : Procedure Request.Answer) : Office := { toScene := s, task := some (q, p) }

theorem advance_call (sc : Scenario) {o : Office} (hidle : o.task = none) (q : Request) :
    o.advance sc (.call q) = busy (o.add (.called q)) q q.order.run := by
  simp only [advance, hidle, busy]
  rfl

theorem advance_of_ne_desk (sc : Scenario) (s : Scene) (q : Request) (p : Procedure Request.Answer) {t : Turn}
    (ht : t ≠ .desk) :
    (busy s q p).advance sc t = busy (s.clocked sc t) q p := by
  cases t with
  | desk => exact absurd rfl ht
  | runner due =>
    simp only [advance, busy, Scene.clocked]
    cases s.console.runner <;> rfl
  | metronome due fatal =>
    simp only [advance, busy, Scene.clocked]
    cases s.console.metronome <;> rfl
  | call q' | refuse n | file f => rfl

def Ripe : Procedure Request.Answer → Scene → Prop
  | .done _, _ => True
  | .act a _, s => ∃ x c, s.console.act a = some (x, c)

theorem advance_of_not_ripe (sc : Scenario) {p : Procedure Request.Answer} (h : ¬ Ripe p s) (q : Request) :
    (busy s q p).advance sc .desk = busy s q p := by
  cases p with
  | done answer => exact absurd trivial h
  | act a next =>
    simp only [advance, work, busy]
    cases hact : s.console.act a with
    | none => rfl
    | some done => exact absurd ⟨done.1, done.2, hact⟩ h

theorem advance_act (sc : Scenario) {a : Action} {x : a.Answer} {c : Console}
    (hact : s.console.act a = some (x, c)) (q : Request) (next : a.Answer → Procedure Request.Answer) :
    (busy s q (.act a next)).advance sc .desk = busy (s.did a x c) q (next x) := by
  simp only [advance, work, busy, hact]

/-- Until the desk can do something, only clocks move; `P` is what they keep. -/
theorem waits {P : Scene → Prop} (hP : ∀ s t, P s → P (s.clocked sc t)) (hs : P s) (q : Request)
    (p : Procedure Request.Answer) (turns : List Turn) :
    (∃ s', P s' ∧ (busy s q p).run sc turns = busy s' q p) ∨
      ∃ before after s', turns = before ++ .desk :: after ∧ P s' ∧ Ripe p s' ∧
        (busy s q p).run sc before = busy s' q p := by
  induction turns generalizing s with
  | nil => exact .inl ⟨s, hs, rfl⟩
  | cons t turns ih =>
    by_cases hripe : t = .desk ∧ Ripe p s
    · obtain ⟨rfl, hripe⟩ := hripe
      exact .inr ⟨[], turns, s, rfl, hs, hripe, rfl⟩
    have hstays : ∃ s₁, P s₁ ∧ (busy s q p).advance sc t = busy s₁ q p := by
      by_cases ht : t = .desk
      · subst ht
        exact ⟨s, hs, advance_of_not_ripe sc (fun h => hripe ⟨rfl, h⟩) q⟩
      · exact ⟨s.clocked sc t, hP s t hs, advance_of_ne_desk sc s q p ht⟩
    obtain ⟨s₁, hs₁, hstays⟩ := hstays
    rcases ih hs₁ with ⟨s', hs', hrun⟩ | ⟨before, after, s', rfl, hs', hripe', hrun⟩
    · refine .inl ⟨s', hs', ?_⟩
      rwa [run, List.foldl_cons, hstays]
    · refine .inr ⟨t :: before, after, s', rfl, hs', hripe', ?_⟩
      rwa [run, List.foldl_cons, hstays]

/-- **Whoever takes turns**, the desk comes to where its procedure leads, or is still on the way. -/
theorem leads_run (hsc : sc.Only Happening.Apart) {D : Scene → Action → Prop}
    {G : Procedure Request.Answer → Scene → Prop} {p : Procedure Request.Answer} (h : p.Leads sc D G s)
    (q : Request) (turns : List Turn) :
    (∃ s' a next, (busy s q p).run sc turns = busy s' q (.act a next) ∧ Extends s s') ∨
      ∃ before after s' p', turns = before ++ after ∧ (busy s q p).run sc before = busy s' q p' ∧ G p' s' ∧
        Extends s s' := by
  induction h generalizing turns with
  | @here p s h => exact .inr ⟨[], turns, s, p, rfl, rfl, h, .refl s⟩
  | @act a next s hfits hnext ih =>
    rcases waits (P := s.Drifts sc) (fun _ t hdrift => hdrift.clocked hsc t) (.refl s) q (.act a next) turns with
      ⟨s', hdrift, hrun⟩ | ⟨before, after, s₁, rfl, hdrift, ⟨x, c, hact⟩, hrun⟩
    · exact .inl ⟨s', a, next, hrun, .of_drifts hdrift⟩
    have hdone : (busy s q (.act a next)).run sc (before ++ [.desk]) = busy (s₁.did a x c) q (next x) := by
      rw [run_append, hrun]
      exact advance_act sc hact q next
    have hext : Extends s (s₁.did a x c) := (Extends.of_drifts hdrift).did
    rw [← List.singleton_append, ← List.append_assoc]
    rcases ih s₁ hdrift x c hact after with
      ⟨s', a', next', hrun', hext'⟩ | ⟨before', after', s', p', rfl, hrun', hG, hext'⟩
    · refine .inl ⟨s', a', next', ?_, hext.trans hext'⟩
      rw [run_append, hdone, hrun']
    · refine .inr ⟨before ++ [.desk] ++ before', after', s', p', (List.append_assoc ..).symm, ?_, hG, hext.trans hext'⟩
      rw [run_append, hdone, hrun']

end Office

end ChipEight
