import ChipEight.Proofs.Office.Birth

/-!
# Progress under fair turns

The desk waits for a clock (a reply, or the end of a thread in `halt`) only when the run state lets it end.  If
everybody takes a turn again and again, then every wait ends.

* `Fair` : whatever has happened, runner, metronome and desk will each take another turn.
* `Console.delay` : a bound on the moves of a clock until the desk can do an action; no turn raises it, and a turn of
  that clock lowers it.
* `Office.acts_soon` : the desk comes to its next action.
* `Office.leads_along` : it comes to where its procedure leads.
* `Office.answers_soon` : it gives its answer.
-/

namespace ChipEight

open Procedure (Secures Leads)

/-! ### Delays -/

/-- A bound on the moves of a runner that finds the run state `stopped`, the jobs that wait not counted. -/
def Runner.delay (rate : UInt32) (r : Runner) : Nat :=
  match r.stage with
  | .leaving => 1
  | .looking | .failing _ => 2
  | .serving => 3
  | .waiting => 4
  | .batch left => left + 5
  | .sizing => (Settings.perBatch rate r.batchRate).toNat + 6

/-- A bound on the moves of a runner that does not find the run state `running`, until it takes a job or leaves. -/
def Runner.approach (rate : UInt32) (r : Runner) : Nat :=
  match r.stage with
  | .serving | .leaving => 1
  | .looking | .failing _ | .waiting => 2
  | .batch left => left + 3
  | .sizing => (Settings.perBatch rate r.batchRate).toNat + 4

/-- A bound on the moves of a metronome that finds the run state `stopped`. -/
def Metronome.delay : Metronome → Nat
  | .leaving => 1
  | .looking => 2
  | .silencing => 3
  | .ticking => 4

namespace Console

/-- A bound on the moves of the clock that the desk has to wait for before it can do an action. -/
def delay (c : Console) : Action → Nat
  | .joinRunner =>
    match c.runner with
    | .live r => c.mail.jobs.length + r.delay c.board.rate
    | _ => 0
  | .joinMetronome =>
    match c.metronome with
    | .live m => m.delay
    | _ => 0
  | .collect ticket =>
    match c.mail.collect? ticket, c.runner with
    | none, .live r => r.approach c.board.rate
    | _, _ => 0
  | _ => 0

/-- The clock that the desk has to wait for, if it has to, is on its way out or to the job it was sent. -/
def Yields (c : Console) : Action → Prop
  | .collect ticket => c.board.mode ≠ .running ∧ c.Expects ticket
  | .joinRunner | .joinMetronome => c.board.mode = .stopped
  | _ => True

variable {sc : Scenario} {c : Console}

theorem delay_of_live {r : Runner} (hlive : c.runner = .live r) :
    c.delay .joinRunner = c.mail.jobs.length + r.delay c.board.rate := by
  simp only [delay, hlive]

theorem delay_of_reply {ticket : Nat} (h : c.mail.collect? ticket ≠ none) : c.delay (.collect ticket) = 0 := by
  obtain ⟨reply, hreply⟩ := Option.ne_none_iff_exists'.mp h
  simp only [delay, hreply]

theorem delay_of_no_reply {ticket : Nat} {r : Runner} (h : c.mail.collect? ticket = none) (hlive : c.runner = .live r) :
    c.delay (.collect ticket) = r.approach c.board.rate := by
  simp only [delay, h, hlive]

theorem delay_of_gone {ticket : Nat} (h : ∀ r, c.runner ≠ .live r) : c.delay (.collect ticket) = 0 := by
  simp only [delay]
  split
  · next hlive => exact absurd hlive (h _)
  · rfl

/-- A reply stays until it is collected. -/
theorem Moves.collect?_ne_none {c' : Console} {es : List Event} (h : c.Moves sc c' es) {ticket : Nat}
    (hreply : c.mail.collect? ticket ≠ none) : c'.mail.collect? ticket ≠ none := by
  obtain ⟨replies, hreplies⟩ := h.replies_eq
  simp only [Mailbox.collect?, ne_eq, Option.map_eq_none_iff] at hreply ⊢
  rw [hreplies, List.find?_append, Option.or_eq_none_iff]
  exact fun hnone => hreply hnone.1

theorem delay_runnerAt (c : Console) (r : Runner) (stage : Runner.Stage) :
    (c.runnerAt r stage).delay .joinRunner = c.mail.jobs.length + Runner.delay c.board.rate { r with stage } := rfl

/-- Without a delay the desk can act. -/
theorem exists_act_of_delay {a : Action} (hyields : c.Yields a) (hdelay : c.delay a = 0) :
    ∃ x c', c.act a = some (x, c') := by
  cases a with
  | joinRunner =>
    simp only [act, joinRunner]
    cases hrunner : c.runner with
    | live r =>
      rw [delay_of_live hrunner] at hdelay
      have hpos : 0 < r.delay c.board.rate := by
        unfold Runner.delay
        split <;> omega
      omega
    | none | ended | died => exact ⟨_, _, rfl⟩
  | joinMetronome =>
    simp only [act, joinMetronome]
    cases hmetronome : c.metronome with
    | live m =>
      simp only [delay, hmetronome] at hdelay
      cases m <;> cases hdelay
    | none | ended | died => exact ⟨_, _, rfl⟩
  | collect ticket =>
    simp only [act, collect]
    cases hreply : c.mail.collect? ticket with
    | some reply => exact ⟨_, _, rfl⟩
    | none =>
      cases hrunner : c.runner with
      | live r =>
        rw [delay_of_no_reply hreply hrunner] at hdelay
        have hpos : 0 < r.approach c.board.rate := by
          unfold Runner.approach
          split <;> omega
        omega
      | none | ended | died => exact ⟨_, _, rfl⟩
  | createFile | appendFile =>
    simp only [act]
    split <;> exact ⟨_, _, rfl⟩
  | _ => exact ⟨_, _, rfl⟩

section

variable {r : Runner}

/-- What an instruction of a batch with `left` more of them leaves, unless it takes the runner down. -/
structure Nears (c : Console) (left : Nat) (c' : Console) : Prop where
  metronome : c'.metronome = c.metronome
  mail : c'.mail = c.mail
  runner : ∃ r, c'.runner = .live r ∧ r.delay c'.board.rate ≤ left + 5 ∧ r.approach c'.board.rate ≤ left + 3

theorem nears_executed (hsc : sc.Only Happening.Apart) (r : Runner) (left : Nat) (journal : Journal) :
    c.Nears left { c.executed sc r left with journal } := by
  obtain ⟨mode, rate, journal', hexecuted, -⟩ := executed_eq (c := c) (r := r) hsc left
  rw [hexecuted]
  refine ⟨rfl, rfl, _, rfl, ?_, ?_⟩
  · simp only [Runner.delay]
    cases (c.upcoming sc r).1 <;> simp only [afterInstr] <;> omega
  · simp only [Runner.approach]
    cases (c.upcoming sc r).1 <;> simp only [afterInstr] <;> omega

theorem instr_eq_or (hsc : sc.Only Happening.Apart) (r : Runner) (left : Nat) :
    ∃ c' : Console, c.Nears left c' ∧ (c.instr sc r left = c' ∨ c.instr sc r left = c'.loseRunner) := by
  rcases instr_cases sc c r left with ⟨journal, hinstr⟩ | hinstr
  · exact ⟨_, nears_executed hsc r left journal, .inl hinstr⟩
  · exact ⟨_, nears_executed hsc r left _, .inr hinstr⟩

theorem metronome_runnerMove (hsc : sc.Only Happening.Apart) (due : Bool) (r : Runner) :
    (c.runnerMove sc due r).metronome = c.metronome := by
  rcases batch_or_between r with ⟨left, hstage⟩ | hmid
  · rw [runnerMove_of_batch hstage]
    obtain ⟨c', hnears, hinstr | hinstr⟩ := instr_eq_or (c := c) hsc r left
    all_goals
      rw [hinstr]
      exact hnears.metronome
  · exact (betweenInstrs_runnerMove hmid due).metronome

/-- A runner that finds the run state `stopped` comes nearer to its end with every move. -/
theorem delay_runnerMove_lt (hsc : sc.Only Happening.Apart) (hlive : c.runner = .live r)
    (hmode : c.board.mode = .stopped) (due : Bool) :
    (c.runnerMove sc due r).delay .joinRunner < c.delay .joinRunner := by
  rw [delay_of_live hlive]
  unfold runnerMove Runner.delay
  cases hstage : r.stage with
  | serving =>
    simp only [serve]
    split
    · next hjobs =>
      rw [delay_runnerAt, hjobs]
      exact Nat.lt_add_one _
    · next ticket jobs hjobs =>
      simp only [delay, hlive, hjobs, Mailbox.reply, List.length_cons, Runner.delay, hstage]
      omega
    · next ticket m jobs hjobs =>
      simp only [delay, hjobs, Mailbox.reply, List.length_cons, Runner.delay, hstage]
      omega
  | looking =>
    simp only [look, hmode]
    exact Nat.lt_add_one _
  | sizing =>
    rw [delay_runnerAt]
    simp only [Runner.delay]
    omega
  | batch left =>
    cases left with
    | zero => exact Nat.lt_add_one _
    | succ left =>
      dsimp only
      obtain ⟨c', ⟨-, hmail, r', hlive', hdelay, -⟩, hinstr | hinstr⟩ := instr_eq_or (c := c) hsc r left
      · rw [hinstr, delay_of_live hlive', hmail]
        omega
      · rw [hinstr]
        exact Nat.zero_lt_of_lt (Nat.lt_add_one _)
  | waiting =>
    have hgoes : (due || c.board.mode != .running) = true := by
      rw [hmode]
      exact Bool.or_true due
    simp only [hgoes, if_true]
    exact Nat.lt_add_one _
  | failing f => exact Nat.lt_add_one _
  | leaving => exact Nat.zero_lt_of_lt (Nat.lt_add_one _)

/-- A runner that does not find the run state `running` comes nearer to its only job with every move. -/
theorem approach_runnerMove_lt (hsc : sc.Only Happening.Apart) (hlive : c.runner = .live r)
    (hmode : c.board.mode ≠ .running) {ticket : Nat} {j : Job} (hjobs : c.mail.jobs = [(ticket, j)])
    (hreply : c.mail.collect? ticket = none) (due : Bool) :
    (c.runnerMove sc due r).delay (.collect ticket) < c.delay (.collect ticket) := by
  have hat (stage : Runner.Stage) :
      (c.runnerAt r stage).delay (.collect ticket) = Runner.approach c.board.rate { r with stage } :=
    delay_of_no_reply (c := c.runnerAt r stage) hreply rfl
  have hdone (reply : Reply) : (({ c.mail with jobs := [] } : Mailbox).reply ticket reply).collect? ticket ≠ none := by
    simp [Mailbox.reply, Mailbox.collect?]
  rw [delay_of_no_reply hreply hlive]
  unfold runnerMove Runner.approach
  cases hstage : r.stage with
  | serving =>
    simp only [serve, hjobs]
    cases j with
    | capture =>
      dsimp only
      rw [delay_of_reply (hdone _)]
      exact Nat.one_pos
    | restore m =>
      dsimp only
      rw [delay_of_reply (hdone _)]
      exact Nat.one_pos
  | looking =>
    simp only [look]
    split
    · exact (hat .leaving).trans_lt (Nat.lt_add_one 1)
    · exact (hat .serving).trans_lt (Nat.lt_add_one 1)
    · next hrunning => exact absurd hrunning hmode
  | sizing =>
    rw [hat]
    simp only [Runner.approach]
    omega
  | batch left =>
    cases left with
    | zero => exact (hat .waiting).trans_lt (Nat.lt_add_one 2)
    | succ left =>
      dsimp only
      obtain ⟨c', ⟨-, hmail, r', hlive', -, happroach⟩, hinstr | hinstr⟩ := instr_eq_or (c := c) hsc r left
      · rw [hinstr, delay_of_no_reply (by rw [hmail, hreply]) hlive']
        omega
      · rw [hinstr, delay_of_gone (c := c'.loseRunner) (by rintro _ ⟨⟩)]
        omega
  | waiting =>
    have hgoes : (due || c.board.mode != .running) = true := by simp [hmode]
    simp only [hgoes, if_true]
    exact (hat .serving).trans_lt (Nat.lt_add_one 1)
  | failing f => exact (hat .leaving).trans_lt (Nat.lt_add_one 1)
  | leaving =>
    rw [delay_of_gone (c := { c with runner := .ended r.processor, mail := c.mail.close }) (by rintro _ ⟨⟩)]
    exact Nat.one_pos

theorem collect_runnerMove (hsc : sc.Only Happening.Apart) (hlive : c.runner = .live r) {ticket : Nat}
    (hyields : c.Yields (.collect ticket)) (due : Bool) :
    (c.runnerMove sc due r).delay (.collect ticket) < c.delay (.collect ticket) ∨
      c.delay (.collect ticket) = 0 ∧ (c.runnerMove sc due r).delay (.collect ticket) = 0 := by
  by_cases hreply : c.mail.collect? ticket = none
  · rcases hyields.2 with ⟨j, hjobs⟩ | ⟨reply, hreplies⟩ | hgone
    · exact .inl (approach_runnerMove_lt hsc hlive hyields.1 hjobs hreply due)
    · simp [Mailbox.collect?, hreplies] at hreply
    · exact absurd hlive (hgone r)
  · have hstays := (moves_runner hsc hlive due).collect?_ne_none hreply
    exact .inr ⟨delay_of_reply hreply, delay_of_reply hstays⟩

end

theorem delay_metronomeMove_lt {m : Metronome} (hlive : c.metronome = .live m) (hmode : c.board.mode = .stopped)
    (sc : Scenario) (due : Bool) : (c.metronomeMove sc due m).delay .joinMetronome < c.delay .joinMetronome := by
  have hdelay : c.delay .joinMetronome = m.delay := by simp only [delay, hlive]
  rw [hdelay]
  cases m with
  | looking =>
    simp only [metronomeMove, hmode]
    exact Nat.lt_add_one 1
  | ticking =>
    simp only [metronomeMove]
    cases c.board.tick.2
    · show 2 < 4
      decide
    · exact Nat.lt_add_one 3
  | silencing =>
    simp only [metronomeMove, silence]
    cases sc.silencingKills
    · exact Nat.lt_add_one 2
    · exact Nat.zero_lt_succ 2
  | leaving =>
    simp only [metronomeMove, silence]
    cases sc.silencingKills <;> exact Nat.lt_add_one 0

/-- The metronome does not touch the runner and the mailbox, and nothing of the board but the timers. -/
theorem metronomeMove_eq (sc : Scenario) (due : Bool) (m : Metronome) :
    (c.metronomeMove sc due m).runner = c.runner ∧ (c.metronomeMove sc due m).mail = c.mail ∧
      (c.metronomeMove sc due m).board =
        { c.board with timers := (c.metronomeMove sc due m).board.timers } := by
  cases m with
  | looking =>
    simp only [metronomeMove]
    split
    · exact ⟨rfl, rfl, rfl⟩
    · exact ⟨rfl, rfl, rfl⟩
    · split <;> exact ⟨rfl, rfl, rfl⟩
  | ticking | silencing | leaving => exact ⟨rfl, rfl, rfl⟩

theorem delay_metronomeMove (sc : Scenario) (due : Bool) (m : Metronome) {a : Action} (ha : a ≠ .joinMetronome) :
    (c.metronomeMove sc due m).delay a = c.delay a := by
  obtain ⟨hrunner, hmail, hboard⟩ := metronomeMove_eq (c := c) sc due m
  have hrate : (c.metronomeMove sc due m).board.rate = c.board.rate := by rw [hboard]
  cases a with
  | joinMetronome => exact absurd rfl ha
  | joinRunner | collect => simp only [delay, hrunner, hmail, hrate]
  | _ => rfl

end Console

def Turn.Relieves (t : Turn) : Action → Prop
  | .joinRunner | .collect _ => ∃ due, t = .runner due
  | .joinMetronome => ∃ due fatal, t = .metronome due fatal
  | _ => False

namespace Scene

variable {sc : Scenario} {s : Scene} {a : Action}

/-- No turn of a clock makes the desk wait longer. -/
theorem delay_clocked_le (hsc : sc.Only Happening.Apart) (hyields : s.console.Yields a) (t : Turn) :
    (s.clocked sc t).console.delay a ≤ s.console.delay a := by
  cases t with
  | runner due =>
    simp only [clocked]
    split
    · next r hlive =>
      cases a with
      | joinRunner => exact (Console.delay_runnerMove_lt hsc hlive hyields due).le
      | joinMetronome =>
        simp only [Console.delay, Console.metronome_runnerMove hsc]
        exact Nat.le_refl _
      | collect ticket =>
        rcases Console.collect_runnerMove hsc hlive hyields due with hlt | ⟨-, hzero⟩
        · exact hlt.le
        · exact hzero.le.trans (Nat.zero_le _)
      | _ => exact Nat.le_refl _
    · exact Nat.le_refl _
  | metronome due fatal =>
    simp only [clocked]
    split
    · next m hlive =>
      by_cases ha : a = .joinMetronome
      · subst ha
        exact (Console.delay_metronomeMove_lt hlive hyields _ due).le
      · exact (Console.delay_metronomeMove _ due m ha).le
    · exact Nat.le_refl _
  | desk | call | refuse | file => exact Nat.le_refl _

/-- The turn of the clock that it waits for shortens the wait. -/
theorem delay_clocked_lt (hsc : sc.Only Happening.Apart) (hyields : s.console.Yields a) {t : Turn} (ht : t.Relieves a)
    (hdelay : s.console.delay a ≠ 0) : (s.clocked sc t).console.delay a < s.console.delay a := by
  cases a with
  | joinRunner =>
    obtain ⟨due, rfl⟩ := ht
    simp only [clocked]
    split
    · next r hlive => exact Console.delay_runnerMove_lt hsc hlive hyields due
    · next hgone =>
      refine absurd ?_ hdelay
      simp only [Console.delay]
  | collect ticket =>
    obtain ⟨due, rfl⟩ := ht
    simp only [clocked]
    split
    · next r hlive =>
      rcases Console.collect_runnerMove hsc hlive hyields due with hlt | ⟨hzero, -⟩
      · exact hlt
      · exact absurd hzero hdelay
    · next hgone => exact absurd (Console.delay_of_gone hgone) hdelay
  | joinMetronome =>
    obtain ⟨due, fatal, rfl⟩ := ht
    simp only [clocked]
    split
    · next m hlive => exact Console.delay_metronomeMove_lt hlive hyields _ due
    · next hgone =>
      refine absurd ?_ hdelay
      simp only [Console.delay]
  | _ => exact ht.elim

end Scene

/-! ### Turns without end -/

/-- Whatever has happened, everybody will take another turn. -/
structure Fair (σ : Nat → Turn) : Prop where
  runner : ∀ n, ∃ m due, n ≤ m ∧ σ m = .runner due
  metronome : ∀ n, ∃ m due fatal, n ≤ m ∧ σ m = .metronome due fatal
  desk : ∀ n, ∃ m, n ≤ m ∧ σ m = .desk

def later (σ : Nat → Turn) (n : Nat) : Nat → Turn := fun m => σ (n + m)

namespace Fair

variable {σ : Nat → Turn}

theorem later (h : Fair σ) (n : Nat) : Fair (later σ n) where
  runner k := by
    obtain ⟨m, due, hle, hm⟩ := h.runner (n + k)
    refine ⟨m - n, due, by omega, ?_⟩
    rw [ChipEight.later, Nat.add_sub_cancel' (by omega), hm]
  metronome k := by
    obtain ⟨m, due, fatal, hle, hm⟩ := h.metronome (n + k)
    refine ⟨m - n, due, fatal, by omega, ?_⟩
    rw [ChipEight.later, Nat.add_sub_cancel' (by omega), hm]
  desk k := by
    obtain ⟨m, hle, hm⟩ := h.desk (n + k)
    refine ⟨m - n, by omega, ?_⟩
    rw [ChipEight.later, Nat.add_sub_cancel' (by omega), hm]

theorem exists_relieves (h : Fair σ) {c : Console} {a : Action} (hyields : c.Yields a) (hdelay : c.delay a ≠ 0) :
    ∃ m, (σ m).Relieves a := by
  cases a with
  | joinRunner | collect =>
    obtain ⟨m, due, -, hm⟩ := h.runner 0
    exact ⟨m, due, hm⟩
  | joinMetronome =>
    obtain ⟨m, due, fatal, -, hm⟩ := h.metronome 0
    exact ⟨m, due, fatal, hm⟩
  | _ => exact absurd rfl hdelay

end Fair

namespace Office

variable {sc : Scenario} {σ : Nat → Turn} {s : Scene}

def along (sc : Scenario) (σ : Nat → Turn) (o : Office) (n : Nat) : Office := o.run sc ((List.range n).map σ)

theorem along_add (sc : Scenario) (σ : Nat → Turn) (o : Office) (m n : Nat) :
    o.along sc σ (m + n) = (o.along sc σ m).along sc (later σ m) n := by
  unfold along
  rw [List.range_add, List.map_append, run_append, List.map_map]
  rfl

theorem along_succ (sc : Scenario) (σ : Nat → Turn) (o : Office) (n : Nat) :
    o.along sc σ (n + 1) = (o.along sc σ n).advance sc (σ n) := by
  unfold along
  rw [List.range_succ, List.map_append, run_append]
  rfl

theorem along_of_split (sc : Scenario) (o : Office) {before after : List Turn} {t : Turn} {n : Nat}
    (h : (List.range n).map σ = before ++ t :: after) :
    o.along sc σ before.length = o.run sc before ∧ σ before.length = t := by
  have hlt : before.length < n := by
    have hlength := congrArg List.length h
    simp only [List.length_map, List.length_range, List.length_append, List.length_cons] at hlength
    omega
  obtain ⟨d, rfl⟩ := Nat.exists_eq_add_of_lt hlt
  rw [Nat.add_assoc, List.range_add, List.map_append, List.map_map] at h
  obtain ⟨hbefore, hafter⟩ := List.append_inj h (by simp)
  refine ⟨congrArg (o.run sc) hbefore, ?_⟩
  rw [List.range_succ_eq_map, List.map_cons, List.cons.injEq] at hafter
  exact hafter.1

/-- While turns go on up to the `n`-th, the desk does something, or only clocks move; `P` is what they keep. -/
theorem waits_along (σ : Nat → Turn) {P : Scene → Prop} (hP : ∀ s t, P s → P (s.clocked sc t)) (hs : P s) (q : Request)
    (p : Procedure Request.Answer) (n : Nat) :
    (∃ s', P s' ∧ (busy s q p).along sc σ n = busy s' q p) ∨
      ∃ m s', P s' ∧ Ripe p s' ∧ σ m = .desk ∧ (busy s q p).along sc σ m = busy s' q p := by
  rcases waits hP hs q p ((List.range n).map σ) with hstays | ⟨before, after, s', hsplit, hs', hripe, hrun⟩
  · exact .inl hstays
  · obtain ⟨halong, hdesk⟩ := along_of_split sc (busy s q p) hsplit
    exact .inr ⟨before.length, s', hs', hripe, hdesk, halong.trans hrun⟩

/-- **The desk comes to its next action**, if the clock that it waits for is on its way out.  The induction is on the
moves that this clock has left. -/
theorem acts_soon (hsc : sc.Only Happening.Apart) (hfair : Fair σ) {a : Action}
    (hyields : ∀ s', s.Drifts sc s' → s'.console.Yields a) (q : Request)
    (next : a.Answer → Procedure Request.Answer) :
    ∃ n s' x c, s.Drifts sc s' ∧ s'.console.act a = some (x, c) ∧
      (busy s q (.act a next)).along sc σ n = busy (s'.did a x c) q (next x) := by
  induction hw : s.console.delay a using Nat.strong_induction_on generalizing s σ with
  | _ w ih =>
  have hP (s' : Scene) (t : Turn) (h : s.Drifts sc s' ∧ s'.console.delay a ≤ w) :
      s.Drifts sc (s'.clocked sc t) ∧ (s'.clocked sc t).console.delay a ≤ w :=
    ⟨h.1.clocked hsc t, (Scene.delay_clocked_le hsc (hyields s' h.1) t).trans h.2⟩
  have hdone (m : Nat) (s' : Scene) (hdrift : s.Drifts sc s') (hripe : Ripe (.act a next) s') (hdesk : σ m = .desk)
      (halong : (busy s q (.act a next)).along sc σ m = busy s' q (.act a next)) :
      ∃ n s' x c, s.Drifts sc s' ∧ s'.console.act a = some (x, c) ∧
        (busy s q (.act a next)).along sc σ n = busy (s'.did a x c) q (next x) := by
    obtain ⟨x, c, hact⟩ := hripe
    refine ⟨m + 1, s', x, c, hdrift, hact, ?_⟩
    rw [along_succ, halong, hdesk, advance_act sc hact]
  by_cases hzero : w = 0
  · obtain ⟨m, -, hdesk⟩ := hfair.desk 0
    rcases waits_along σ hP ⟨.refl s, hw.le⟩ q (.act a next) m with
      ⟨s', ⟨hdrift, hdelay⟩, halong⟩ | ⟨m', s', ⟨hdrift, -⟩, hripe, hdesk', halong⟩
    · have hnone : s'.console.delay a = 0 := Nat.le_zero.mp (hdelay.trans hzero.le)
      exact hdone m s' hdrift (Console.exists_act_of_delay (hyields s' hdrift) hnone) hdesk halong
    · exact hdone m' s' hdrift hripe hdesk' halong
  · obtain ⟨m, hm⟩ := hfair.exists_relieves (hyields s (.refl s)) (hw ▸ hzero)
    rcases waits_along σ hP ⟨.refl s, hw.le⟩ q (.act a next) m with
      ⟨s', ⟨hdrift, hdelay⟩, halong⟩ | ⟨m', s', ⟨hdrift, -⟩, hripe, hdesk, halong⟩
    · have hne : σ m ≠ .desk := by
        intro hdesk
        rw [hdesk] at hm
        cases a <;> simp [Turn.Relieves] at hm
      have hlt : (s'.clocked sc (σ m)).console.delay a < w := by
        by_cases hnone : s'.console.delay a = 0
        · have hle := Scene.delay_clocked_le hsc (hyields s' hdrift) (σ m)
          omega
        · exact (Scene.delay_clocked_lt hsc (hyields s' hdrift) hm hnone).trans_le hdelay
      have hdrift₁ := hdrift.clocked hsc (σ m)
      obtain ⟨n, s₂, x, c, hdrift₂, hact, halong₂⟩ :=
        ih _ hlt (hfair.later (m + 1)) (fun s₂ hdrift₂ => hyields s₂ (hdrift₁.trans hdrift₂)) rfl
      refine ⟨m + 1 + n, s₂, x, c, hdrift₁.trans hdrift₂, hact, ?_⟩
      rw [along_add, along_succ, halong, advance_of_ne_desk sc s' q _ hne, halong₂]
    · exact hdone m' s' hdrift hripe hdesk halong

/-- **The desk comes to where its procedure leads**, if it never waits for a clock that is not on its way out. -/
theorem leads_along (hsc : sc.Only Happening.Apart) (hfair : Fair σ) {D : Scene → Action → Prop}
    (hD : ∀ s a, D s a → s.console.Yields a) {G : Procedure Request.Answer → Scene → Prop}
    {p : Procedure Request.Answer} (h : p.Leads sc D G s) (q : Request) :
    ∃ n s' p', (busy s q p).along sc σ n = busy s' q p' ∧ G p' s' ∧ Extends s s' := by
  induction h generalizing σ with
  | @here p s h => exact ⟨0, s, p, rfl, h, .refl s⟩
  | @act a next s hfits hnext ih =>
    obtain ⟨m, s₁, x, c, hdrift, hact, halong⟩ :=
      acts_soon hsc hfair (fun s' hdrift => hD s' a (hfits s' hdrift)) q next
    obtain ⟨n, s', p', halong', hG, hext⟩ := ih s₁ hdrift x c hact (hfair.later m)
    refine ⟨m + n, s', p', ?_, hG, (Extends.of_drifts hdrift).did.trans hext⟩
    rw [along_add, halong, halong']

/-- **The desk gives its answer.** -/
theorem answers_soon (hsc : sc.Only Happening.Apart) (hfair : Fair σ) (q : Request) (answer : Request.Answer) :
    ∃ n s', s.Drifts sc s' ∧
      (busy s q (.done answer)).along sc σ n = { toScene := s'.add (.answered q answer) } := by
  have hdone (m : Nat) (s' : Scene) (hdrift : s.Drifts sc s') (hdesk : σ m = .desk)
      (halong : (busy s q (.done answer)).along sc σ m = busy s' q (.done answer)) :
      ∃ n s', s.Drifts sc s' ∧
        (busy s q (.done answer)).along sc σ n = { toScene := s'.add (.answered q answer) } := by
    refine ⟨m + 1, s', hdrift, ?_⟩
    rw [along_succ, halong, hdesk]
    rfl
  obtain ⟨m, -, hdesk⟩ := hfair.desk 0
  rcases waits_along σ (P := s.Drifts sc) (fun _ t hdrift => hdrift.clocked hsc t) (.refl s) q (.done answer) m with
    ⟨s', hdrift, halong⟩ | ⟨m', s', hdrift, -, hdesk', halong⟩
  · exact hdone m s' hdrift hdesk halong
  · exact hdone m' s' hdrift hdesk' halong

end Office

end ChipEight
