import ChipEight.Proofs.Office.Answers
import ChipEight.Proofs.Office.Progress

/-!
# Errands

Not all that the desk does is asked of it at the counter: a control key makes it carry out a procedure too (`handle`).
Here it does so among moving clocks, and nobody comes in between.

* `Errand` : a scene with what is left of the procedure; `Errand.advance`, `Errand.run` : one turn, and turns one after
  the other.
* `Errand.run_bind` : a procedure and what comes after it are carried out one after the other.
* `Procedure.Comes` : how a procedure can end, the turns forgotten; `Comes.secured`, `Comes.kept`, `Comes.within` : what
  is known of a procedure in advance holds when it has ended.
* `Errand.desk_turn` : what a single turn of the desk does on the way.
* `Errand.ends_soon` : under fair turns the procedure ends.
-/

namespace ChipEight

open Procedure (Secures Within)

/-- A scene in which the desk is at a procedure. -/
structure Errand (α : Type) extends Scene where
  rest : Procedure α

namespace Errand

variable {α β : Type} {sc : Scenario}

/-- One turn.  The desk does its next action, or waits; whoever else comes finds it busy. -/
def advance (sc : Scenario) (e : Errand α) (t : Turn) : Errand α :=
  match t, e.rest with
  | .desk, .act a next =>
    match e.console.act a with
    | some (x, c) => { toScene := e.did a x c, rest := next x }
    | none => e
  | t, _ => { e with toScene := e.toScene.clocked sc t }

def run (sc : Scenario) (e : Errand α) (turns : List Turn) : Errand α := turns.foldl (advance sc) e

def along (sc : Scenario) (σ : Nat → Turn) (e : Errand α) (n : Nat) : Errand α := e.run sc ((List.range n).map σ)

theorem run_cons (sc : Scenario) (e : Errand α) (t : Turn) (turns : List Turn) :
    e.run sc (t :: turns) = (e.advance sc t).run sc turns := rfl

theorem run_append (sc : Scenario) (e : Errand α) (turns turns' : List Turn) :
    e.run sc (turns ++ turns') = (e.run sc turns).run sc turns' := List.foldl_append

theorem along_succ (sc : Scenario) (σ : Nat → Turn) (e : Errand α) (n : Nat) :
    e.along sc σ (n + 1) = (e.along sc σ n).advance sc (σ n) := by
  unfold along
  rw [List.range_succ, List.map_append, run_append]
  rfl

/-! ### One turn -/

variable {s s' : Scene}

theorem advance_of_ne_desk (sc : Scenario) (s : Scene) (p : Procedure α) {t : Turn} (ht : t ≠ .desk) :
    (⟨s, p⟩ : Errand α).advance sc t = ⟨s.clocked sc t, p⟩ := by
  cases t with
  | desk => exact absurd rfl ht
  | _ => rfl

theorem advance_done (sc : Scenario) (s : Scene) (r : α) (t : Turn) :
    (⟨s, .done r⟩ : Errand α).advance sc t = ⟨s.clocked sc t, .done r⟩ := by
  cases t <;> rfl

theorem advance_act (sc : Scenario) {a : Action} {x : a.Answer} {c : Console} (hact : s.console.act a = some (x, c))
    (next : a.Answer → Procedure α) :
    (⟨s, .act a next⟩ : Errand α).advance sc .desk = ⟨s.did a x c, next x⟩ := by
  simp only [advance, hact]

theorem advance_wait (sc : Scenario) {a : Action} (hact : s.console.act a = none) (next : a.Answer → Procedure α) :
    (⟨s, .act a next⟩ : Errand α).advance sc .desk = ⟨s, .act a next⟩ := by
  simp only [advance, hact]

/-- A clock moves or nothing happens, or the desk does its next action. -/
theorem advance_cases (sc : Scenario) (s : Scene) (p : Procedure α) (t : Turn) :
    (⟨s, p⟩ : Errand α).advance sc t = ⟨s.clocked sc t, p⟩ ∨
      ∃ a next x c, p = .act a next ∧ t = .desk ∧ s.console.act a = some (x, c) ∧
        (⟨s, p⟩ : Errand α).advance sc t = ⟨s.did a x c, next x⟩ := by
  by_cases ht : t = .desk
  · subst ht
    cases p with
    | done r => exact .inl (advance_done sc s r .desk)
    | act a next =>
      cases hact : s.console.act a with
      | none => exact .inl (advance_wait sc hact next)
      | some done => exact .inr ⟨a, next, done.1, done.2, rfl, rfl, hact, advance_act sc hact next⟩
  · exact .inl (advance_of_ne_desk sc s p ht)

/-- What comes after a procedure does not change the turns in which it is carried out. -/
theorem advance_bind (sc : Scenario) (s : Scene) {p : Procedure α} (f : α → Procedure β) (t : Turn)
    (hp : ∀ r, p ≠ .done r) :
    (⟨s, p >>= f⟩ : Errand β).advance sc t =
      ⟨((⟨s, p⟩ : Errand α).advance sc t).toScene, ((⟨s, p⟩ : Errand α).advance sc t).rest >>= f⟩ := by
  cases p with
  | done r => exact absurd rfl (hp r)
  | act a next =>
    by_cases ht : t = .desk
    · subst ht
      cases hact : s.console.act a with
      | none =>
        rw [advance_wait sc hact next]
        exact advance_wait sc hact fun x => next x >>= f
      | some done =>
        rw [advance_act sc hact next]
        exact advance_act sc hact fun x => next x >>= f
    · rw [advance_of_ne_desk sc s _ ht, advance_of_ne_desk sc s _ ht]

/-! ### Turns -/

theorem run_kept (sc : Scenario) {I : Scene → Procedure α → Prop} (hclock : ∀ {s p} t, I s p → I (s.clocked sc t) p)
    (hact : ∀ {s a next x c}, I s (.act a next) → s.console.act a = some (x, c) → I (s.did a x c) (next x))
    {e : Errand α} (h : I e.toScene e.rest) (turns : List Turn) : I (e.run sc turns).toScene (e.run sc turns).rest := by
  induction turns generalizing e with
  | nil => exact h
  | cons t turns ih =>
    refine ih ?_
    obtain ⟨s, p⟩ := e
    rcases advance_cases sc s p t with hclocked | ⟨a, next, x, c, rfl, rfl, hdone, hacted⟩
    · rw [hclocked]
      exact hclock t h
    · rw [hacted]
      exact hact h hdone

/-- **A procedure and what comes after it** are carried out one after the other. -/
theorem run_bind {p : Procedure α} {f : α → Procedure β} {turns : List Turn} {r : β}
    (hrun : (⟨s, p >>= f⟩ : Errand β).run sc turns = ⟨s', .done r⟩) :
    ∃ before after s₁ r₁, turns = before ++ after ∧ (⟨s, p⟩ : Errand α).run sc before = ⟨s₁, .done r₁⟩ ∧
      (⟨s₁, f r₁⟩ : Errand β).run sc after = ⟨s', .done r⟩ := by
  induction turns generalizing s p with
  | nil =>
    cases p with
    | done r₁ => exact ⟨[], [], s, r₁, rfl, rfl, hrun⟩
    | act a next => cases hrun
  | cons t turns ih =>
    by_cases hp : ∃ r₁, p = .done r₁
    · obtain ⟨r₁, rfl⟩ := hp
      exact ⟨[], t :: turns, s, r₁, rfl, rfl, hrun⟩
    · rw [run_cons, advance_bind sc s f t (not_exists.mp hp)] at hrun
      obtain ⟨before, after, s₁, r₁, rfl, hbefore, hafter⟩ := ih hrun
      exact ⟨t :: before, after, s₁, r₁, rfl, hbefore, hafter⟩

end Errand

/-! ### How a procedure ends -/

namespace Procedure

/-- Among moving clocks the procedure can lead from the one scene to the other, with this result. -/
inductive Comes (sc : Scenario) {α : Type} : Procedure α → Scene → α → Scene → Prop
  | done {r s s'} (hdrift : s.Drifts sc s') : Comes sc (.done r) s r s'
  | act {a next s s₁ x c r s'} (hdrift : s.Drifts sc s₁) (hact : s₁.console.act a = some (x, c))
    (hnext : Comes sc (next x) (s₁.did a x c) r s') : Comes sc (.act a next) s r s'

namespace Comes

variable {α β : Type} {sc : Scenario} {p : Procedure α} {s s' : Scene} {r : α}

theorem of_drifts {s₁ : Scene} (hdrift : s.Drifts sc s₁) (h : p.Comes sc s₁ r s') : p.Comes sc s r s' := by
  cases h with
  | done hlater => exact .done (hdrift.trans hlater)
  | act hlater hact hnext => exact .act (hdrift.trans hlater) hact hnext

theorem bind {f : α → Procedure β} {r : β} (h : (p >>= f).Comes sc s r s') :
    ∃ r₁ s₁, p.Comes sc s r₁ s₁ ∧ (f r₁).Comes sc s₁ r s' := by
  induction p generalizing s with
  | done r₁ => exact ⟨r₁, s, .done (.refl s), h⟩
  | act a next ih =>
    cases h with
    | act hdrift hact hnext =>
      obtain ⟨r₁, s₁, hfirst, hthen⟩ := ih _ hnext
      exact ⟨r₁, s₁, .act hdrift hact hfirst, hthen⟩

theorem grows (h : p.Comes sc s r s') : Extends s s' := by
  induction h with
  | done hdrift => exact .of_drifts hdrift
  | act hdrift _ _ ih => exact (Extends.of_drifts hdrift).did.trans ih

/-- What the procedure secures is there when it has ended, but for moves of the clocks. -/
theorem secured {D : Scene → Action → Prop} {Q : α → Scene → Prop} (h : p.Comes sc s r s')
    (hsecures : p.Secures sc D Q s) : ∃ s₁, Q r s₁ ∧ s₁.Drifts sc s' := by
  induction h with
  | @done r s s' hdrift =>
    cases hsecures with
    | here hend =>
      obtain ⟨_, ⟨⟩, hQ⟩ := hend
      exact ⟨s, hQ, hdrift⟩
  | act hdrift hact _ ih =>
    cases hsecures with
    | here hend =>
      obtain ⟨_, ⟨⟩, -⟩ := hend
    | act hfits hnext => exact ih (hnext _ hdrift _ _ hact)

/-- What each move and each fitting action keeps is kept on the way. -/
theorem kept {D : Scene → Action → Prop} {Q : α → Scene → Prop} {J : Scene → Prop} (h : p.Comes sc s r s')
    (hsecures : p.Secures sc D Q s) (hs : J s)
    (hmove : ∀ {s c es}, J s → s.console.Moves sc c es → J ⟨c, s.past ++ es⟩)
    (hact : ∀ {s a x c}, J s → D s a → s.console.act a = some (x, c) → J (s.did a x c)) : J s' := by
  have hkeeps : p.Secures sc D (fun r s' => Q r s' ∧ J s') s := by
    refine (hsecures.keeps hs hmove hact).mono (fun _ _ h => h) ?_
    rintro _ s₁ ⟨⟨r₁, rfl, hQ⟩, hJ⟩
    exact ⟨r₁, rfl, hQ, hJ⟩
  obtain ⟨s₁, ⟨-, hJ⟩, hdrift⟩ := h.secured hkeeps
  exact hdrift.induct hmove hJ

/-- What the procedure allows has come about, as long as the answers of its actions are as it relies on. -/
theorem within {A : (a : Action) → a.Answer → Prop} {F : Action → Prop} {X : Event → Prop} {Q : α → Prop}
    {J : Scene → Prop} (h : p.Comes sc s r s') (hJ : Scene.Grants sc A F X J) (hp : p.Within A F Q) (hs : J s) :
    Scene.EventSince X s s' ∨ Q r ∧ J s' := by
  induction h with
  | done hdrift => exact (hJ.drifts hs hdrift).imp id fun hs' => ⟨hp, hs'⟩
  | @act a next s s₁ x c r s' hdrift hact hnext ih =>
    obtain ⟨es, hes, -⟩ := hnext.grows
    obtain ⟨es₁, hes₁, -⟩ := Extends.of_drifts hdrift
    rcases hJ.drifts hs hdrift with hevent | hs₁
    · exact .inl ((hevent.append rfl).append hes)
    · obtain ⟨hx, hs₂⟩ := hJ.acts hs₁ hp.1 hact
      have hpast : (s₁.did a x c).past = s.past ++ (es₁ ++ a.events x) := by
        rw [Scene.did, hes₁, List.append_assoc]
      exact (ih (hp.2 x hx) hs₂).imp (fun hevent => hevent.after hpast) id

end Comes

end Procedure

namespace Errand

variable {α β : Type} {sc : Scenario} {s s' : Scene}

section

variable {p : Procedure α} {turns : List Turn} {r : α}

theorem run_comes (hsc : sc.Only Happening.Apart) (hrun : (⟨s, p⟩ : Errand α).run sc turns = ⟨s', .done r⟩) :
    p.Comes sc s r s' := by
  induction turns generalizing s p with
  | nil =>
    cases hrun
    exact .done (.refl _)
  | cons t turns ih =>
    rw [run_cons] at hrun
    rcases advance_cases sc s p t with hclocked | ⟨a, next, x, c, rfl, rfl, hact, hacted⟩
    · rw [hclocked] at hrun
      exact .of_drifts ((Scene.Drifts.refl s).clocked hsc t) (ih hrun)
    · rw [hacted] at hrun
      exact .act (.refl s) hact (ih hrun)

variable {A : (a : Action) → a.Answer → Prop} {F : Action → Prop} {Q : α → Prop} {J : Scene → Prop}

/-- **A turn of the desk** on the way: it waits, or it does an action that the procedure is known for. -/
theorem desk_turn (hsc : sc.Only Happening.Apart) (hJ : Scene.Grants sc A F (fun _ => False) J) (h : p.Within A F Q)
    (hs : J s) {e : Errand α} (he : (⟨s, p⟩ : Errand α).run sc turns = e) :
    e.advance sc .desk = e ∨ ∃ a x c, F a ∧ e.console.act a = some (x, c) ∧
      (e.advance sc .desk).toScene = e.did a x c := by
  have hkept := run_kept sc (e := ⟨s, p⟩) (I := fun s' p => p.Within A F Q ∧ J s') ?_ ?_ ⟨h, hs⟩ turns
  · rw [he] at hkept
    obtain ⟨s', p'⟩ := e
    rcases advance_cases sc s' p' .desk with hclocked | ⟨a, next, x, c, rfl, -, hdone, hacted⟩
    · exact .inl hclocked
    · refine .inr ⟨a, x, c, hkept.1.1, hdone, ?_⟩
      rw [hacted]
  · rintro s₁ p₁ t ⟨hp, hs₁⟩
    exact ⟨hp, (hJ.drifts hs₁ ((Scene.Drifts.refl s₁).clocked hsc t)).resolve_left Scene.not_eventSince⟩
  · rintro s₁ a next x c ⟨hp, hs₁⟩ hdone
    obtain ⟨hx, hs₂⟩ := hJ.acts hs₁ hp.1 hdone
    exact ⟨hp.2 x hx, hs₂⟩

end

/-! ### Turns without end -/

section

variable {p : Procedure α} {σ : Nat → Turn}

/-- As long as there is something to do, an errand is like a request. -/
theorem busy_advance (sc : Scenario) (s : Scene) (q : Request) (f : α → Procedure Request.Answer) (t : Turn)
    (hp : ∀ r, p ≠ .done r) :
    (Office.busy s q (p >>= f)).advance sc t =
      Office.busy ((⟨s, p⟩ : Errand α).advance sc t).toScene q (((⟨s, p⟩ : Errand α).advance sc t).rest >>= f) := by
  by_cases ht : t = .desk
  · subst ht
    cases p with
    | done r => exact absurd rfl (hp r)
    | act a next =>
      cases hact : s.console.act a with
      | none =>
        rw [advance_wait sc hact next]
        refine Office.advance_of_not_ripe sc (p := .act a fun x => next x >>= f) ?_ q
        rintro ⟨x, c, hdone⟩
        cases hact.symm.trans hdone
      | some done =>
        rw [advance_act sc hact next]
        exact Office.advance_act sc hact q fun x => next x >>= f
  · rw [advance_of_ne_desk sc s p ht]
    exact Office.advance_of_ne_desk sc s q _ ht

theorem busy_along (hrest : ∀ n s' r, (⟨s, p⟩ : Errand α).along sc σ n ≠ ⟨s', .done r⟩) (q : Request)
    (f : α → Procedure Request.Answer) (n : Nat) :
    (Office.busy s q (p >>= f)).along sc σ n =
      Office.busy ((⟨s, p⟩ : Errand α).along sc σ n).toScene q (((⟨s, p⟩ : Errand α).along sc σ n).rest >>= f) := by
  induction n with
  | zero => rfl
  | succ n ih =>
    rw [Office.along_succ, ih, along_succ]
    refine busy_advance sc _ q f (σ n) fun r hr => ?_
    exact hrest n _ r (congrArg (Errand.mk _) hr)

/-- **Under fair turns an errand ends**, if the desk never waits for a clock that is not on its way out. -/
theorem ends_soon (hsc : sc.Only Happening.Apart) (hfair : Fair σ) {D : Scene → Action → Prop}
    (hD : ∀ s a, D s a → s.console.Yields a) {Q : α → Scene → Prop} (h : p.Secures sc D Q s) :
    ∃ n s' r, (⟨s, p⟩ : Errand α).along sc σ n = ⟨s', .done r⟩ := by
  by_contra hnever
  have hrest (n : Nat) (s' : Scene) (r : α) : (⟨s, p⟩ : Errand α).along sc σ n ≠ ⟨s', .done r⟩ :=
    fun hend => hnever ⟨n, s', r, hend⟩
  have hends : (p >>= fun _ => Procedure.done (.ok none : Request.Answer)).Secures sc D (fun _ _ => True) s :=
    h.leads fun _ _ _ => Secures.done trivial
  obtain ⟨n, s', p', halong, ⟨answer, rfl, -⟩, -⟩ := Office.leads_along hsc hfair hD hends .load
  rw [busy_along hrest] at halong
  -- an office at its answer comes from an errand at its end
  have hdone : ((⟨s, p⟩ : Errand α).along sc σ n).rest >>= (fun _ => Procedure.done (.ok none : Request.Answer)) =
      .done answer := by
    injection halong with _ htask
    injection htask with htask
    exact (Prod.mk.inj htask).2
  cases hlast : ((⟨s, p⟩ : Errand α).along sc σ n).rest with
  | done r => exact hrest n _ r (congrArg (Errand.mk _) hlast)
  | act a next =>
    rw [hlast] at hdone
    cases hdone

end

end Errand

end ChipEight
