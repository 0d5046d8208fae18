import ChipEight.Console.Turn

/-!
# Reading a past

* `Account` : the faults that have ended runs and wait to be told.  A run that was given up is not accounted for.
* `unreported`, `told`, `recorded` : the faults that wait to be told, those that somebody was told of, and those that
  were recorded.
* `deals` : the copies and replacements of the machine.
* `Perished` : the last run has died.
* `Asked` : somebody waits for the answer to a request.
* `Each` : every event has a given relation to what lies before it.
-/

namespace ChipEight

namespace Event

def tells : Event → Option Fault
  | .reported f | .answered _ (.error (.fault f)) => some f
  | _ => none

def records : Event → Option Fault
  | .faulted f => some f
  | _ => none

def isDeal : Event → Bool
  | .copied .. | .replaced .. => true
  | _ => false

/-- Nobody comes to the desk or leaves it. -/
def Inner : Event → Prop
  | .called _ | .answered .. => False
  | _ => True

end Event

/-! ### Faults -/

/-- The faults that wait to be told.  Whoever is told of one of them ends the wait of all: the others are dropped. -/
structure Account where
  /-- The faults of earlier runs. -/
  waiting : List Fault := []
  /-- The fault of the last run. -/
  latest : Option Fault := none
  /-- The last run was given up. -/
  void : Bool := false

namespace Account

def unreported (a : Account) : List Fault := a.waiting ++ a.latest.toList

def enter (a : Account) (e : Event) : Account :=
  match e with
  | .begun => { waiting := a.unreported }
  | .faulted f => if a.void then a else { a with latest := some f }
  | .givenUp => { a with latest := none, void := true }
  | .reported _ | .answered _ (.error (.fault _)) => { a with waiting := [], latest := none }
  | _ => a

def Faultless (a : Account) : Prop := a.latest = none ∨ a.void = true

theorem Faultless.enter {a : Account} (h : a.Faultless) {e : Event} (he : ∀ f, e ≠ .faulted f) :
    (a.enter e).Faultless := by
  cases e with
  | faulted f => exact absurd rfl (he f)
  | begun | reported f | givenUp => exact .inl rfl
  | answered q answer =>
    rcases answer with e | x
    · cases e with
      | fault f => exact .inl rfl
      | _ => exact h
    · exact h
  | _ => exact h

end Account

/-- To tell somebody of one fault is to drop the others. -/
theorem Account.enter_of_tells {e : Event} {f : Fault} (h : e.tells = some f) (a : Account) :
    a.enter e = { a with waiting := [], latest := none } := by
  cases e with
  | reported f' => rfl
  | answered q answer =>
    rcases answer with e | x
    · cases e with
      | fault f' => rfl
      | _ => cases h
    · cases h
  | _ => cases h

def account (past : List Event) : Account := past.foldl .enter {}

theorem account_append (past es : List Event) : account (past ++ es) = es.foldl .enter (account past) :=
  List.foldl_append

/-- The faults that wait to be told, the oldest first. -/
def unreported (past : List Event) : List Fault := (account past).unreported

/-- The faults that somebody was told of, in the order of telling. -/
def told (past : List Event) : List Fault := past.filterMap Event.tells

/-- The faults that were recorded. -/
def recorded (past : List Event) : List Fault := past.filterMap Event.records

theorem told_append (past es : List Event) : told (past ++ es) = told past ++ told es := List.filterMap_append

theorem recorded_append (past es : List Event) : recorded (past ++ es) = recorded past ++ recorded es :=
  List.filterMap_append

structure Event.Plain (e : Event) : Prop where
  account_enter : ∀ a : Account, a.enter e = a
  isDeal_eq : e.isDeal = false
  ne_begun : e ≠ .begun

theorem Event.plain_seated (p : Processor) : (Event.seated p).Plain := ⟨fun _ => rfl, rfl, nofun⟩

theorem Event.plain_cleared : Event.cleared.Plain := ⟨fun _ => rfl, rfl, nofun⟩

theorem Event.plain_called (q : Request) : (Event.called q).Plain := ⟨fun _ => rfl, rfl, nofun⟩

theorem Event.plain_answered (q : Request) {answer : Request.Answer} (h : ∀ f, answer ≠ .error (.fault f)) :
    (Event.answered q answer).Plain := by
  refine ⟨fun a => ?_, rfl, nofun⟩
  rcases answer with e | x
  · cases e with
    | fault f => exact absurd rfl (h f)
    | _ => rfl
  · rfl

/-! ### Copies and replacements -/

/-- The copies and replacements of the machine. -/
def deals (past : List Event) : List Event := past.filter Event.isDeal

theorem deals_append (past es : List Event) : deals (past ++ es) = deals past ++ deals es :=
  List.filter_append past es

theorem deals_append_of_none {past es : List Event} (h : deals es = []) : deals (past ++ es) = deals past := by
  rw [deals_append, h, List.append_nil]

/-! ### Deaths -/

/-- The last run has died. -/
def Perished (past : List Event) : Prop := ∃ before after, past = before ++ .died :: after ∧ .begun ∉ after

theorem Perished.append {past es : List Event} (h : Perished past) (hes : .begun ∉ es) : Perished (past ++ es) := by
  obtain ⟨before, after, rfl, hafter⟩ := h
  refine ⟨before, after ++ es, by rw [List.append_assoc, List.cons_append], fun hmem => ?_⟩
  rcases List.mem_append.mp hmem with hmem | hmem
  · exact hafter hmem
  · exact hes hmem

/-! ### Requests -/

/-- Somebody has asked for `q` and waits for the answer. -/
def Asked (q : Request) (past : List Event) : Prop :=
  ∃ before during, past = before ++ .called q :: during ∧ ∀ e ∈ during, e.Inner

theorem Asked.append {q : Request} {past es : List Event} (h : Asked q past) (hes : ∀ e ∈ es, e.Inner) :
    Asked q (past ++ es) := by
  obtain ⟨before, during, rfl, hinner⟩ := h
  refine ⟨before, during ++ es, by rw [List.append_assoc, List.cons_append], fun e he => ?_⟩
  rcases List.mem_append.mp he with he | he
  · exact hinner e he
  · exact hes e he

/-! ### What is remembered of an action -/

theorem Action.length_events_le (a : Action) (x : a.Answer) : (a.events x).length ≤ 1 := by
  cases a with
  | spawnRunner | spawnMetronome => cases x <;> simp [events]
  | note n => cases n <;> simp [events]
  | _ => simp [events]

/-- Whatever the desk does, nobody comes and nobody leaves. -/
theorem Action.inner_of_mem_events {a : Action} {x : a.Answer} {e : Event} (h : e ∈ a.events x) : e.Inner := by
  cases a with
  | park | resetBoard | captureParked | replaceParked =>
    cases List.mem_singleton.mp h
    trivial
  | spawnRunner | spawnMetronome =>
    cases x
    all_goals simp [Action.events] at h
    all_goals subst h; trivial
  | note n =>
    cases n with
    | previousRunEnded f =>
      cases List.mem_singleton.mp h
      trivial
    | _ => cases h
  | _ => cases h

/-! ### Event after event -/

/-- Every event of a past has the relation `R` to what lies before it. -/
def Each (R : List Event → Event → Prop) (past : List Event) : Prop :=
  ∀ before e after, past = before ++ e :: after → R before e

namespace Each

variable {R : List Event → Event → Prop} {past es : List Event}

theorem nil : Each R [] := by
  intro before e after h
  cases before <;> cases h

theorem append (h : Each R past) (hes : ∀ before e after, es = before ++ e :: after → R (past ++ before) e) :
    Each R (past ++ es) := by
  intro before e after hsplit
  rcases List.append_eq_append_iff.mp hsplit with ⟨middle, rfl, hnew⟩ | ⟨middle, hold, htail⟩
  · exact hes middle e after hnew
  · cases middle with
    | nil =>
      rw [List.append_nil] at hold
      rw [← hold, ← List.append_nil past]
      exact hes [] e after htail.symm
    | cons e' middle =>
      cases htail
      exact h before e middle hold

theorem snoc (h : Each R past) {e : Event} (he : R past e) : Each R (past ++ [e]) := by
  refine h.append fun before e' after hsplit => ?_
  cases before with
  | nil =>
    cases hsplit
    rwa [List.append_nil]
  | cons e'' before =>
    rw [List.cons_append, List.cons.injEq] at hsplit
    exact absurd hsplit.2 (by simp)

theorem append_of_forall (h : Each R past) (hes : ∀ e ∈ es, ∀ before, R before e) : Each R (past ++ es) :=
  h.append fun _ e _ hsplit => hes e (hsplit ▸ List.mem_append_right _ List.mem_cons_self) _

theorem of_snoc {e : Event} (h : Each R (past ++ [e])) : Each R past ∧ R past e := by
  constructor
  · intro before e' after hsplit
    apply h before e' (after ++ [e])
    rw [hsplit, List.append_assoc, List.cons_append]
  · exact h past e [] rfl

theorem append_of_length_le (h : Each R past) (hlength : es.length ≤ 1) (hes : ∀ e ∈ es, R past e) :
    Each R (past ++ es) := by
  rcases es with _ | ⟨e, _ | ⟨e', es⟩⟩
  · rwa [List.append_nil]
  · exact h.snoc (hes e List.mem_cons_self)
  · simp at hlength

end Each

end ChipEight
