import ChipEight.Proofs.Office.Moves

/-!
# Procedures among moving clocks

What can be said of a procedure before it is carried out, when `run_interpreter` and `run_timer` may move before each of
its actions.

* `Procedure.Leads` : the procedure leads to a point where `G` holds, and every action before it fits (`D`) the scene in
  which it is done.
* `Procedure.Secures` : the same for a point at which the procedure has ended.
* `Leads.bind`, `Secures.andThen` and the like : the rules for programs one after the other.
* `Leads.guarded`, `Leads.keeps` : what each move and each fitting action keeps is kept on the way.
-/

namespace ChipEight

theorem Scene.did_of_quiet {s : Scene} {a : Action} {x : a.Answer} {c : Console} (h : a.events x = []) :
    s.did a x c = ⟨c, s.past⟩ := by
  rw [did, h, List.append_nil]

namespace Procedure

variable {α β : Type} {sc : Scenario} {D : Scene → Action → Prop}

/-- Whatever the clocks do before each action, the procedure leads to a point where `G` holds of what is left of it, and
the actions before that fit. -/
inductive Leads (sc : Scenario) (D : Scene → Action → Prop) (G : Procedure α → Scene → Prop) :
    Procedure α → Scene → Prop
  | here {p s} (h : G p s) : Leads sc D G p s
  | act {a next s} (hfits : ∀ s', s.Drifts sc s' → D s' a)
    (hnext : ∀ s', s.Drifts sc s' → ∀ x c, s'.console.act a = some (x, c) → Leads sc D G (next x) (s'.did a x c)) :
    Leads sc D G (.act a next) s

def Ended (Q : α → Scene → Prop) (p : Procedure α) (s : Scene) : Prop := ∃ r, p = .done r ∧ Q r s

/-- Whatever the clocks do before each action, the procedure ends as `Q` says, and its actions fit. -/
def Secures (sc : Scenario) (D : Scene → Action → Prop) (p : Procedure α) (Q : α → Scene → Prop) (s : Scene) : Prop :=
  p.Leads sc D (Ended Q) s

namespace Leads

variable {p : Procedure α} {s : Scene} {G : Procedure α → Scene → Prop}

theorem bind {f : α → Procedure β} {H : Procedure β → Scene → Prop} (h : p.Leads sc D G s)
    (hgo : ∀ p s', G p s' → (p >>= f).Leads sc D H s') : (p >>= f).Leads sc D H s := by
  induction h with
  | here h => exact hgo _ _ h
  | act hfits _ ih => exact .act hfits ih

theorem trans {H : Procedure α → Scene → Prop} (h : p.Leads sc D G s)
    (hgo : ∀ p s', G p s' → p.Leads sc D H s') : p.Leads sc D H s := by
  induction h with
  | here h => exact hgo _ _ h
  | act hfits _ ih => exact .act hfits ih

theorem mono {D' : Scene → Action → Prop} {H : Procedure α → Scene → Prop} (h : p.Leads sc D G s)
    (hD : ∀ s a, D s a → D' s a) (hG : ∀ p s', G p s' → H p s') : p.Leads sc D' H s := by
  induction h with
  | here h => exact .here (hG _ _ h)
  | act hfits _ ih => exact .act (fun s' hdrift => hD s' _ (hfits s' hdrift)) ih

/-- What each move and each fitting action keeps holds whenever an action is done, and at the end. -/
theorem guarded {J : Scene → Prop} (h : p.Leads sc D G s) (hs : J s)
    (hmove : ∀ {s c es}, J s → s.console.Moves sc c es → J ⟨c, s.past ++ es⟩)
    (hact : ∀ {s a x c}, J s → D s a → s.console.act a = some (x, c) → J (s.did a x c)) :
    p.Leads sc (fun s a => D s a ∧ J s) (fun p s' => G p s' ∧ J s') s := by
  induction h with
  | here h => exact .here ⟨h, hs⟩
  | act hfits _ ih =>
    refine .act (fun s' hdrift => ⟨hfits s' hdrift, hdrift.induct hmove hs⟩) fun s' hdrift x c hdone => ?_
    have hs' : J s' := hdrift.induct hmove hs
    exact ih s' hdrift x c hdone (hact hs' (hfits s' hdrift) hdone)

/-- What each move and each fitting action keeps is kept on the way. -/
theorem keeps {J : Scene → Prop} (h : p.Leads sc D G s) (hs : J s)
    (hmove : ∀ {s c es}, J s → s.console.Moves sc c es → J ⟨c, s.past ++ es⟩)
    (hact : ∀ {s a x c}, J s → D s a → s.console.act a = some (x, c) → J (s.did a x c)) :
    p.Leads sc D (fun p s' => G p s' ∧ J s') s :=
  (h.guarded hs hmove hact).mono (fun _ _ hfits => hfits.1) fun _ _ hend => hend

/-- An action, and what is known (`K`) when it is done. -/
theorem step {a : Action} {next : a.Answer → Procedure α} {K : a.Answer → Scene → Prop}
    (h : ∀ s', s.Drifts sc s' → D s' a ∧ ∀ x c, s'.console.act a = some (x, c) → K x (s'.did a x c))
    (hnext : ∀ x s', K x s' → (next x).Leads sc D G s') : (Procedure.act a next).Leads sc D G s :=
  .act (fun s' hdrift => (h s' hdrift).1) fun s' hdrift x c hdone => hnext x _ ((h s' hdrift).2 x c hdone)

/-- The same for an action that can be done at once and that nobody needs to remember. -/
theorem quiet {a : Action} {next : a.Answer → Procedure α} {K : a.Answer → Scene → Prop}
    (h : ∀ s', s.Drifts sc s' → D s' a ∧ ∃ x c, s'.console.act a = some (x, c) ∧ a.events x = [] ∧ K x ⟨c, s'.past⟩)
    (hnext : ∀ x s', K x s' → (next x).Leads sc D G s') : (Procedure.act a next).Leads sc D G s := by
  refine .step (fun s' hdrift => ?_) hnext
  obtain ⟨hfits, x, c, hdone, hevents, hK⟩ := h s' hdrift
  refine ⟨hfits, fun x' c' hdone' => ?_⟩
  rw [hdone] at hdone'
  cases hdone'
  rwa [Scene.did_of_quiet hevents]

end Leads

namespace Secures

variable {p : Procedure α} {s : Scene} {Q : α → Scene → Prop}

theorem done {r : α} (h : Q r s) : (Procedure.done r).Secures sc D Q s := .here ⟨r, rfl, h⟩

/-- A procedure, and what comes after it. -/
theorem leads {f : α → Procedure β} {H : Procedure β → Scene → Prop} (h : p.Secures sc D Q s)
    (hf : ∀ r s', Q r s' → (f r).Leads sc D H s') : (p >>= f).Leads sc D H s := by
  refine Leads.bind h fun p' s' hend => ?_
  obtain ⟨r, rfl, hr⟩ := hend
  exact hf r s' hr

theorem mono {Q' : α → Scene → Prop} (h : p.Secures sc D Q s) (hQ : ∀ r s', Q r s' → Q' r s') :
    p.Secures sc D Q' s := by
  refine Leads.mono h (fun _ _ hfits => hfits) fun p' s' hend => ?_
  obtain ⟨r, rfl, hr⟩ := hend
  exact ⟨r, rfl, hQ r s' hr⟩

/-- An order that can fail, and one that comes after it if it does not. -/
theorem andThen {o : Order.Op α} {f : α → Order.Op β} {Q : Except DeskError α → Scene → Prop}
    {H : Procedure (Except DeskError β) → Scene → Prop} (h : o.run.Secures sc D Q s)
    (hok : ∀ r s', Q (.ok r) s' → (f r).run.Leads sc D H s')
    (herror : ∀ e s', Q (.error e) s' → Leads sc D H (.done (.error e)) s') : (o >>= f).run.Leads sc D H s := by
  refine Secures.leads (p := o.run) h fun r s' hend => ?_
  cases r with
  | ok r => exact hok r s' hend
  | error e => exact herror e s' hend

/-- An order that cannot fail. -/
theorem lifted {H : Procedure (Except DeskError α) → Scene → Prop} (h : p.Secures sc D Q s)
    (hQ : ∀ r s', Q r s' → H (.done (.ok r)) s') : (liftM p : Order.Op α).run.Leads sc D H s :=
  Secures.leads (p := p) h fun r s' hend => .here (hQ r s' hend)

/-- An order that cannot fail, and one that comes after it. -/
theorem lift {f : α → Order.Op β} {H : Procedure (Except DeskError β) → Scene → Prop} (h : p.Secures sc D Q s)
    (hf : ∀ r s', Q r s' → (f r).run.Leads sc D H s') : ((liftM p : Order.Op α) >>= f).run.Leads sc D H s := by
  refine Leads.bind (p := (liftM p : Order.Op α).run) (h.lifted (H := fun rest s' => ∃ r, rest = .done (.ok r) ∧ Q r s')
    fun r s' hend => ⟨r, rfl, hend⟩) fun rest s' hend => ?_
  obtain ⟨r, rfl, hr⟩ := hend
  exact hf r s' hr

end Secures

end Procedure

end ChipEight
