import ChipEight.Proofs.Office.History

/-!
# Who is told of a fault

The fault of a run is on the board until the next run begins, and with the desk from then on, where there is room for
one.  So of faults that wait together `stop` or `reset` tells only of the last.

* `Event.Reports` : what an event says about the faults that wait to be told.
* `Scene.reports_goes` : one turn.
* `told_sublist`, `told_eq` : what becomes of all faults.
* `Office.reports` : any history.
* `Office.dropped_fault` : a history in which a fault is dropped.
-/

namespace ChipEight

/-- What an event says about the faults that wait to be told. -/
def Event.Reports (before : List Event) : Event → Prop
  | .answered .stop (.ok _) => unreported before = []
  | .answered .stop (.error e) =>
    e = .disconnected ∧ Perished before ∨ ∃ f, e = .fault f ∧ (unreported before).getLast? = some f
  | .answered _ (.error (.fault _)) => False
  | .reported f => (unreported before).getLast? = some f
  | .cleared => unreported before = []
  | .faulted _ => (account before).Faultless
  | _ => True

theorem Action.faulted_not_mem_events (a : Action) (x : a.Answer) (f : Fault) : .faulted f ∉ a.events x := by
  cases a with
  | spawnRunner | spawnMetronome => cases x <;> simp [events]
  | note n => cases n <;> simp [events]
  | _ => simp [events]

namespace Scene

variable {sc : Scenario} {s s' : Scene} {T : Turn → Prop}

/-- A run at work has no fault yet, unless nobody will be told of it. -/
def Faultless (s : Scene) : Prop :=
  ∀ r, s.console.runner = .live r → r.stage ≠ .leaving → (account s.past).Faultless

theorem Faultless.moves {c : Console} {es : List Event} (h : s.Faultless) (hmoves : s.console.Moves sc c es) :
    Faultless ⟨c, s.past ++ es⟩ := by
  intro r' hlive' hstage'
  obtain ⟨r, hlive, hstage⟩ := hmoves.working_of_working hlive' hstage'
  rcases hmoves.fault_or_same with ⟨r₁, f, -, -, rfl, -⟩ | ⟨-, hsame⟩
  · cases hlive'
    exact absurd rfl hstage'
  · rw [account_append, hsame]
    exact h r hlive hstage

theorem Faultless.add (h : s.Faultless) {e : Event} (he : ∀ f, e ≠ .faulted f) : (s.add e).Faultless := by
  intro r hlive hstage
  have haccount : account (s.add e).past = (account s.past).enter e := account_append _ _
  rw [haccount]
  exact (h r hlive hstage).enter he

theorem Faultless.acts {a : Action} {x : a.Answer} {c : Console} (h : s.Faultless)
    (hact : s.console.act a = some (x, c)) : (s.did a x c).Faultless := by
  intro r hlive hstage
  have haccount : account (s.did a x c).past = (a.events x).foldl .enter (account s.past) := account_append _ _
  rw [haccount]
  rcases (Console.footprint_of_act hact).begun with hsame | hnone | hbegun
  · refine List.foldlRecOn _ Account.enter (h r (hsame ▸ hlive) hstage) fun account h e he => h.enter fun f hf => ?_
    exact a.faulted_not_mem_events x f (hf ▸ he)
  · cases hnone.symm.trans hlive
  · rw [hbegun]
    exact .inl rfl

/-- What an action of the desk tells fits. -/
theorem reports_of_fits {role : Request} {a : Action} {x : a.Answer} (hfits : s.Fits sc role a) :
    ∀ e ∈ a.events x, e.Reports s.past := by
  intro e he
  cases a with
  | resetBoard =>
    cases List.mem_singleton.mp he
    exact hfits.2.2
  | note n =>
    cases n with
    | previousRunEnded f =>
      cases List.mem_singleton.mp he
      exact hfits.2
    | _ => cases he
  | park | captureParked | replaceParked =>
    cases List.mem_singleton.mp he
    trivial
  | spawnRunner | spawnMetronome =>
    cases x <;> simp [Action.events] at he <;> subst he <;> trivial
  | _ => cases he

theorem reports_goes (h : Each Event.Reports s.past ∧ s.Faultless) (hgoes : s.Goes sc T s') :
    Each Event.Reports s'.past ∧ s'.Faultless := by
  cases hgoes with
  | stays | refused | filed => exact h
  | moves hwhen hmoves =>
    refine ⟨?_, h.2.moves hmoves⟩
    cases hmoves with
    | fail hlive hstage => exact h.1.snoc (h.2 _ hlive (by rw [hstage]; nofun))
    | pass | copy | install | step | die | leave | tick | hush => exact h.1.append_of_forall (by simp [Event.Reports])
  | @acts role a x c hrole hasked hfits hact =>
    exact ⟨h.1.append_of_length_le (a.length_events_le x) (reports_of_fits hfits), h.2.acts hact⟩
  | called hq hrests => exact ⟨h.1.snoc trivial, h.2.add nofun⟩
  | @answered q answer before hasks hmeets =>
    refine ⟨h.1.snoc ?_, h.2.add nofun⟩
    obtain ⟨hperished, ds', hsettles, hleaves⟩ := hmeets
    rcases hleaves.rests_or_tells with ⟨hrests, hfault⟩ | ⟨f, rfl, rfl, hstands⟩
    · rcases answer with e | x
      · cases q with
        | stop =>
          rcases hsettles.2 with rfl | ⟨f, rfl⟩
          · exact .inl ⟨rfl, hperished rfl⟩
          · exact absurd rfl (hfault f)
        | _ =>
          cases e with
          | fault f => exact absurd rfl (hfault f)
          | _ => trivial
      · cases q with
        | stop =>
          have hstands : s.Stands _ false false false (.inHand none) := hleaves
          exact List.getLast?_eq_none_iff.mp hstands.books.2.1
        | _ => trivial
    · exact .inr ⟨f, rfl, hstands.books.2.1⟩

end Scene

/-! ### What becomes of a fault -/

theorem Event.Reports.getLast?_eq {e : Event} {before : List Event} {f : Fault} (h : e.Reports before)
    (he : e.tells = some f) : (unreported before).getLast? = some f := by
  cases e with
  | reported f' =>
    cases he
    exact h
  | answered q answer =>
    rcases answer with e | x
    · cases e with
      | fault f' =>
        cases he
        cases q with
        | stop =>
          rcases h with ⟨hne, -⟩ | ⟨f', hf', hlast⟩
          · cases hne
          · cases hf'
            exact hlast
        | _ => exact h.elim
      | _ => cases he
    · cases he
  | _ => cases he

namespace Account

variable (a : Account) {e : Event}

/-- Only a run that is given up takes its fault with it. -/
theorem unreported_enter (htells : e.tells = none) (hrecords : e.records = none) (hgivenUp : e ≠ .givenUp) :
    (a.enter e).unreported = a.unreported := by
  cases e with
  | begun => simp [enter, unreported]
  | answered q answer =>
    rcases answer with e | x
    · cases e with
      | fault f => cases htells
      | _ => rfl
    · rfl
  | faulted f => cases hrecords
  | reported f => cases htells
  | givenUp => exact absurd rfl hgivenUp
  | _ => rfl

theorem void_enter {a : Account} (h : a.void = false) (he : e ≠ .givenUp) : (a.enter e).void = false := by
  cases e with
  | givenUp => exact absurd rfl he
  | faulted f => simp [enter, h]
  | answered q answer =>
    rcases answer with e | x
    · cases e <;> exact h
    · exact h
  | begun => rfl
  | _ => exact h

theorem unreported_enter_givenUp : (a.enter .givenUp).unreported.Sublist a.unreported := by
  simp [enter, unreported]

theorem unreported_enter_faulted (f : Fault) : (a.enter (.faulted f)).unreported.Sublist (a.unreported ++ [f]) := by
  cases hvoid : a.void with
  | true => simp [enter, hvoid]
  | false =>
    simp only [enter, hvoid, Bool.false_eq_true, if_false, unreported, Option.toList_some, List.append_assoc]
    exact (List.sublist_append_right _ _).append_left _

theorem unreported_enter_faulted_of_none (f : Fault) (hvoid : a.void = false) (hlatest : a.latest = none) :
    (a.enter (.faulted f)).unreported = a.unreported ++ [f] := by
  simp [enter, hvoid, hlatest, unreported]

end Account

theorem Event.eq_of_records {e : Event} {f : Fault} (h : e.records = some f) : e = .faulted f := by
  cases e with
  | faulted f' =>
    cases h
    rfl
  | _ => cases h

/-- Nobody is told of a fault that did not occur, nor of one twice, and they are told in order. -/
theorem told_sublist {past : List Event} (h : Each Event.Reports past) :
    (told past ++ unreported past).Sublist (recorded past) := by
  induction past using List.reverseRecOn with
  | nil => exact .slnil
  | append_singleton past e ih =>
    obtain ⟨hpast, he⟩ := h.of_snoc
    replace ih := ih hpast
    have haccount : account (past ++ [e]) = (account past).enter e := account_append _ _
    rw [told_append, recorded_append, unreported, haccount]
    cases htells : e.tells with
    | some f =>
      have htold : told [e] = [f] := by simp [told, htells]
      have hlast : [f].Sublist (unreported past) :=
        List.singleton_sublist.mpr (List.mem_of_getLast? (he.getLast?_eq htells))
      rw [Account.enter_of_tells htells, htold]
      simp only [Account.unreported, Option.toList_none, List.append_nil]
      exact (hlast.append_left _).trans (ih.trans (List.sublist_append_left _ _))
    | none =>
      have htold : told [e] = [] := by simp [told, htells]
      rw [htold, List.append_nil]
      cases hrecords : e.records with
      | none =>
        have hkept : ((account past).enter e).unreported.Sublist (unreported past) := by
          by_cases hgivenUp : e = .givenUp
          · subst hgivenUp
            exact Account.unreported_enter_givenUp _
          · rw [Account.unreported_enter _ htells hrecords hgivenUp]
            exact List.Sublist.refl _
        exact (hkept.append_left _).trans (ih.trans (List.sublist_append_left _ _))
      | some f =>
        obtain rfl := Event.eq_of_records hrecords
        refine ((Account.unreported_enter_faulted _ f).append_left _).trans ?_
        rw [← List.append_assoc]
        exact ih.append_right _

/-- If no run is given up, and no two faults ever wait to be told at once, then nothing is dropped. -/
theorem told_eq {past : List Event} (h : Each Event.Reports past) (hgivenUp : .givenUp ∉ past)
    (hsingle : Each (fun before e => e.tells ≠ none → (unreported before).length ≤ 1) past) :
    told past ++ unreported past = recorded past ∧ (account past).void = false := by
  induction past using List.reverseRecOn with
  | nil => exact ⟨rfl, rfl⟩
  | append_singleton past e ih =>
    obtain ⟨hpast, he⟩ := h.of_snoc
    obtain ⟨hsingle, hone⟩ := hsingle.of_snoc
    obtain ⟨ih, hvoid⟩ := ih hpast (fun hmem => hgivenUp (List.mem_append_left _ hmem)) hsingle
    have hne : e ≠ .givenUp := fun heq => hgivenUp (List.mem_append_right _ (heq ▸ List.mem_singleton_self _))
    have haccount : account (past ++ [e]) = (account past).enter e := account_append _ _
    rw [told_append, recorded_append, unreported, haccount]
    refine ⟨?_, Account.void_enter hvoid hne⟩
    cases htells : e.tells with
    | some f =>
      have hlast : unreported past = [f] := by
        have hget := he.getLast?_eq htells
        have hlength := hone (by rw [htells]; exact Option.some_ne_none f)
        rcases hwaiting : unreported past with _ | ⟨f', _ | ⟨f'', rest⟩⟩
        · rw [hwaiting] at hget
          cases hget
        · rw [hwaiting] at hget
          cases hget
          rfl
        · rw [hwaiting] at hlength
          simp at hlength
      have hrecorded : recorded [e] = [] := by cases e <;> first | rfl | cases htells
      rw [Account.enter_of_tells htells, hrecorded, ← ih, hlast]
      simp [told, htells, Account.unreported]
    | none =>
      have htold : told [e] = [] := by simp [told, htells]
      rw [htold, List.append_nil]
      cases hrecords : e.records with
      | none =>
        rw [Account.unreported_enter _ htells hrecords hne, ← ih]
        simp [recorded, hrecords, unreported]
      | some f =>
        obtain rfl := Event.eq_of_records hrecords
        have hlatest : (account past).latest = none := by
          rcases he with hlatest | htrue
          · exact hlatest
          · rw [hvoid] at htrue
            cases htrue
        rw [Account.unreported_enter_faulted_of_none _ f hvoid hlatest, ← List.append_assoc]
        exact congrArg (· ++ [f]) ih

namespace Office

/-- **What stops and resets tell of faults.**  In every history:
* a stop tells of the last fault that waits to be told, and succeeds just when none waits; it fails otherwise only when
  the runner has died.  An accepted reset tells of the last one as well, before it clears the board.  No other request
  fails with a fault;
* nobody is told of a fault that was not recorded, nor of one twice;
* if no run is given up, and no two faults ever wait at once when somebody is told, then every fault was told or still
  waits. -/
theorem reports (s : Settings) {sc : Scenario} (hsc : sc.Only Happening.Apart) (turns : List Turn) :
    let past := ((Office.new s).run sc turns).past
    Each Event.Reports past ∧ (told past ++ unreported past).Sublist (recorded past) ∧
      (.givenUp ∉ past → Each (fun before e => e.tells ≠ none → (unreported before).length ≤ 1) past →
        told past ++ unreported past = recorded past) := by
  intro past
  have hsound : (Office.new s).Sound sc fun _ => True := sound_new s
  obtain ⟨-, hreports, -⟩ := hsound.run hsc (fun _ _ => trivial)
    (J := fun s => Each Event.Reports s.past ∧ s.Faultless) (fun _ _ h hgoes => Scene.reports_goes h hgoes)
    ⟨.nil, nofun⟩
  exact ⟨hreports, told_sublist hreports, fun hgivenUp hsingle => (told_eq hreports hgivenUp hsingle).1⟩

/-- A program that returns twice from where nobody called is started again after the first fault. -/
def startedAgain : List Turn := session (.reset [0x00, 0xEE, 0x00, 0xEE]) ++ session .start ++ session .stop

theorem reports_startedAgain :
    alone.Only Happening.Apart ∧ Each Event.Reports ((Office.new {}).run alone startedAgain).past := by
  have halone := only_alone Happening.Apart
  exact ⟨halone, (reports {} halone startedAgain).1⟩

/-- Of two faults the first is dropped. -/
theorem dropped_fault :
    let o := (Office.new {}).run alone startedAgain
    o.task.isNone = true ∧ recorded o.past = [.stackUnderflow 0x200, .stackUnderflow 0x202] ∧
      told o.past = [.stackUnderflow 0x202] ∧ unreported o.past = [] := by
  decide +kernel

end Office

end ChipEight
