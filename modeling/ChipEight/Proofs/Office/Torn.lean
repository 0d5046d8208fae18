import ChipEight.Proofs.Office.Recovery

/-!
# A run that has ended and does not look so

When a fault is recorded between the look and the setting of `pause`, the machine looks paused although nobody is at
work.  It stays like that until somebody asks for a copy: then the desk finds nobody to ask, ends the run, and the
machine looks stopped.

* `Console.Torn` : such a console.
* `Procedure.Stops` : what the desk does about it.
* `Office.stopped_of_torn` : the run state after a copy.
* `Office.torn_copy` : what it makes of a later start.
-/

namespace ChipEight

open Procedure (Within)

/-! ### Consoles -/

namespace Console

/-- The desk has a run to join at which nobody works any more, and yet the run state is not `stopped`. -/
structure Torn (c : Console) : Prop where
  mode : c.board.mode ≠ .stopped
  attached : c.desk.attached = true
  ended : ∀ r, c.runner = .live r → r.stage = .leaving
  replies : c.mail.replies = []

structure Halted (c : Console) : Prop where
  mode : c.board.mode = .stopped
  ended : ∀ r, c.runner = .live r → r.stage = .leaving

variable {sc : Scenario} {c c' : Console} {es : List Event}

/-- Where nobody works the run state stays, and nobody begins to work. -/
theorem Moves.of_ended (h : c.Moves sc c' es) (hended : ∀ r, c.runner = .live r → r.stage = .leaving) :
    c'.board.mode = c.board.mode ∧ c'.mail.replies = c.mail.replies ∧ ∀ r, c'.runner = .live r → r.stage = .leaving := by
  have hworks {r : Runner} (hlive : c.runner = .live r) (hstage : r.stage ≠ .leaving) : False := hstage (hended r hlive)
  cases h with
  | pass hlive hstage | copy hlive hstage | install hlive hstage | step hlive hstage | die hlive hstage =>
    exact (hworks hlive hstage).elim
  | fail hlive hstage => exact (hworks hlive (by rw [hstage]; nofun)).elim
  | leave hlive hstage => exact ⟨rfl, rfl, nofun⟩
  | tick | hush => exact ⟨rfl, rfl, hended⟩

theorem Torn.moves (h : c.Torn) (hmoves : c.Moves sc c' es) : c'.Torn ∧ c'.board.mode = c.board.mode := by
  obtain ⟨hmode, hreplies, hended⟩ := hmoves.of_ended h.ended
  have hattached : c'.desk.attached = true := (congrArg Desk.attached hmoves.desk_eq).trans h.attached
  exact ⟨⟨hmode ▸ h.mode, hattached, hended, hreplies.trans h.replies⟩, hmode⟩

theorem Halted.moves (h : c.Halted) (hmoves : c.Moves sc c' es) : c'.Halted := by
  obtain ⟨hmode, -, hended⟩ := hmoves.of_ended h.ended
  exact ⟨hmode.trans h.mode, hended⟩

end Console

/-! ### Actions -/

/-- What the desk does to find out whether somebody is at work. -/
def Action.Seeks : Action → Prop
  | .isAttached | .post .capture | .collect _ => True
  | _ => False

/-- What it finds: a run, and nobody who replies. -/
def Action.Misses : (a : Action) → a.Answer → Prop
  | .isAttached, attached => attached = true
  | .collect _, reply => reply = none
  | _, _ => True

namespace Console

variable {c c' : Console} {a : Action} {x : a.Answer}

theorem Torn.seeks (h : c.Torn) (ha : a.Seeks) (hact : c.act a = some (x, c')) : a.Misses x ∧ c'.Torn := by
  cases a with
  | isAttached =>
    cases hact
    exact ⟨h.attached, h⟩
  | post j =>
    cases j with
    | restore m => exact ha.elim
    | capture =>
      rcases of_post hact with ⟨r, -, -, rfl⟩ | ⟨-, -, rfl⟩
      · exact ⟨trivial, h.mode, h.attached, h.ended, h.replies⟩
      · exact ⟨trivial, h⟩
  | collect ticket =>
    rcases of_collect hact with ⟨r, hreplied, -, -⟩ | ⟨-, rfl, rfl⟩
    · rw [h.replies] at hreplied
      cases hreplied
    · exact ⟨rfl, h⟩
  | _ => exact ha.elim

theorem Torn.halted (h : c.Torn) (hact : c.act (.setMode .stopped) = some ((), c')) : c'.Halted := by
  cases hact
  exact ⟨rfl, h.ended⟩

theorem Halted.acts (h : c.Halted) {B : Action.Bounds} (ha : a.Bounded B) (hmodes : ∀ s, ¬ B.modes s)
    (hthreads : ¬ B.threads) (hact : c.act a = some (x, c')) : c'.Halted := by
  have hspared : c.Spared a c' := (footprint_of_act hact).toSpared
  constructor
  · rcases hspared.mode with hsame | rfl
    · exact hsame.trans h.mode
    · exact ha.resolve_right (hmodes _)
  · rcases hspared.runner with hsame | ⟨-, hnone⟩ | rfl
    · rw [hsame]
      exact h.ended
    · rw [hnone]
      nofun
    · exact absurd ha hthreads

end Console

/-! ### Procedures -/

namespace Procedure

variable {α β : Type}

def Stops : Procedure α → Prop
  | .done _ => False
  | .act a next => a = .setMode .stopped ∨ a.Seeks ∧ ∀ x, a.Misses x → (next x).Stops

theorem Stops.bind {p : Procedure α} (h : p.Stops) (f : α → Procedure β) : (p >>= f).Stops := by
  induction p with
  | done r => exact h.elim
  | act a next ih => exact h.imp id fun ⟨ha, hnext⟩ => ⟨ha, fun x hx => ih x (hnext x hx)⟩

end Procedure

/-- **A request for a copy** ends a run at which nobody works. -/
theorem Order.stops_order {q : Request} (hq : q.Copies) : q.order.run.Stops := by
  have hend {α : Type} {next : Bool → Procedure α} (hnext : (next true).Stops) :
      (Procedure.act .isAttached next).Stops := by
    refine .inr ⟨trivial, ?_⟩
    rintro _ rfl
    exact hnext
  have hcapture : capture.run.Stops := by
    refine hend (.inr ⟨trivial, ?_⟩)
    rintro (_ | ticket) -
    · exact hend (.inl rfl)
    · refine .inr ⟨trivial, ?_⟩
      rintro _ rfl
      exact hend (.inl rfl)
  obtain rfl | rfl := hq
  · exact hcapture.bind _
  · exact (hcapture.bind _).bind _

/-! ### Turns -/

namespace Office

variable {sc : Scenario} {o : Office} {turns : List Turn} {q : Request} {answer : Request.Answer}

/-- As long as nobody comes, the run state stays as it is. -/
theorem mode_of_torn (hsc : sc.Only Happening.Apart) (hidle : o.task = none) (htorn : o.console.Torn)
    (hturns : ∀ t ∈ turns, t.isClock = true) : (o.run sc turns).console.board.mode = o.console.board.mode := by
  induction turns generalizing o with
  | nil => rfl
  | cons t turns ih =>
    obtain ⟨s, task⟩ := o
    cases hidle
    have hdrift : s.Drifts sc (s.clocked sc t) := (Scene.Drifts.refl s).clocked hsc t
    obtain ⟨htorn', hmode⟩ : (s.clocked sc t).console.Torn ∧ (s.clocked sc t).console.board.mode = s.console.board.mode :=
      hdrift.induct (P := fun s' => s'.console.Torn ∧ s'.console.board.mode = s.console.board.mode)
        (fun h hmoves => ⟨(h.1.moves hmoves).1, (h.1.moves hmoves).2.trans h.2⟩) ⟨htorn, rfl⟩
    rw [run_cons, advance_clock sc (hturns t List.mem_cons_self)]
    exact (ih rfl htorn' fun t ht => hturns t (List.mem_cons_of_mem _ ht)).trans hmode

/-- **After a copy** the run state is `stopped`. -/
theorem stopped_of_torn (hsc : sc.Only Happening.Apart) (hq : q.Copies) (hidle : o.task = none)
    (htorn : o.console.Torn) (hanswers : o.Answers sc q turns answer) :
    (o.run sc (.call q :: turns ++ [.desk])).console.board.mode = .stopped := by
  obtain ⟨s, hrun, hasks⟩ := hanswers
  have hmodes : ∀ s, ¬ q.bounds.modes s := by rcases hq with rfl | rfl <;> exact fun _ => id
  have hthreads : ¬ q.bounds.threads := by
    rcases hq with rfl | rfl <;> exact fun h => h.elim nofun fun ⟨_, hreset⟩ => nomatch hreset
  have hwithin : q.order.run.Within (fun _ _ => True) (Action.Bounded q.bounds) fun _ => True :=
    (Order.request_within (fun _ _ => True) q).mono (fun _ _ h => h) (fun _ h => h) fun _ _ => trivial
  have hcalled : (o.add (.called q)).console.Torn := htorn
  rw [advance_call sc hidle] at hrun
  have hkept := kept_of_asks
    (I := fun _ s p => p.Within (fun _ _ => True) (Action.Bounded q.bounds) (fun _ => True) ∧
      (s.console.Torn ∧ p.Stops ∨ s.console.Halted)) ?_ ?_ ⟨hwithin, .inl ⟨hcalled, Order.stops_order hq⟩⟩
    ⟨[], rfl, nofun⟩ hrun hasks
  · have hhalted : s.console.Halted := hkept.2.resolve_left fun h => h.2
    have hall : o.run sc (.call q :: turns ++ [.desk]) = { toScene := s.add (.answered q answer) } := by
      rw [List.cons_append, run_cons, run_append, advance_call sc hidle, hrun]
      rfl
    rw [hall]
    exact hhalted.mode
  · rintro turns s p t ⟨hp, hs⟩
    have hdrift : s.Drifts sc (s.clocked sc t) := (Scene.Drifts.refl s).clocked hsc t
    refine ⟨hp, ?_⟩
    rcases hs with ⟨htorn, hstops⟩ | hhalted
    · exact .inl ⟨hdrift.induct (P := fun s => s.console.Torn) (fun h hmoves => (h.moves hmoves).1) htorn, hstops⟩
    · exact .inr (hdrift.induct (P := fun s => s.console.Halted) (fun h hmoves => h.moves hmoves) hhalted)
  · rintro turns s a next x c ⟨hp, hs⟩ hact
    refine ⟨hp.2 x trivial, ?_⟩
    rcases hs with ⟨htorn, rfl | ⟨hseeks, hnext⟩⟩ | hhalted
    · exact .inr (htorn.halted hact)
    · obtain ⟨hmisses, htorn'⟩ := htorn.seeks hseeks hact
      exact .inl ⟨htorn', hnext x hmisses⟩
    · exact .inr (hhalted.acts hp.1 hmodes hthreads hact)

/-- **A copy that is seen.**  A pause is torn: a fault has ended the run, and the machine looks paused.  Where somebody asks
for a copy it looks stopped, and a start begins a run; where nobody does it looks paused, and a start does nothing. -/
theorem torn_copy :
    let torn := (failingAsked .pause 1).run alone (.runner true :: .replicate 3 .desk ++ [.runner true])
    let copied := torn.run alone (session .capture)
    let uncopied := torn.run alone (clockTurns (session .capture))
    copied.console.board.mode = .stopped ∧ uncopied.console.board.mode = .paused ∧
      (copied.run alone (session .start)).console.board.mode = .running ∧
      (uncopied.run alone (session .start)).console.board.mode = .paused := by
  decide +kernel

end Office

end ChipEight
