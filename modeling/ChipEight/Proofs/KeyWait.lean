import ChipEight.Proofs.Edges
import ChipEight.Proofs.Sprites
import Mathlib.Data.Nat.Count

/-!
# Waiting for a key

A program that awaits a key tries the same instruction again and again.  However long that takes, the machine stays as
it was, but that its timers tick, and the key that comes at last is the only thing that it has got.

* `Surroundings.Delays` : so many questions are not answered with a key, and then one is.
* `Session.step_awaiting`, `Session.step_received` : one attempt.
* `Core.after_waiting` : attempts and ticks in any order.
* `Console.Attended` : the moves of the runner, while others do not touch the machine but for its timers, which tick.
* `Console.Pending`, `Console.Attended.pending` : what holds between two attempts, whatever becomes of the run.
* `Console.Run.comes_to_instr` : as long as the run goes on there is another attempt.
* `Console.key_wait` : all of this of one machine, alone and in the hands of the runner.
-/

namespace ChipEight

/-! ### One attempt -/

/-- From question `i` on, `n` questions are not answered with a key of the keypad, and then the key `k` is held. -/
structure Surroundings.Delays (o : Surroundings) (i n : Nat) (k : UInt8) : Prop where
  misses (j : Nat) : j < n → ∀ b, o.key (i + j) = some b → 16 ≤ b
  key : o.key (i + n) = some k
  lt : k < 16

/-- The next instruction awaits a key for this register. -/
def Machine.AwaitsKey (m : Machine) (x : Digit) : Prop := ∃ w, m.Fetches w ∧ w.family = 0xF ∧ w.kk = 0x0A ∧ w.x = x

section

variable {o : Surroundings} {i n j : Nat} {k : UInt8} {x : Digit}

theorem Surroundings.Delays.heldKey_eq_none (h : o.Delays i n k) (hj : j < n) {t : Tally} (ht : t.asked = i + j) :
    o.heldKey t = none := by
  unfold heldKey
  rw [ht, Option.filter_eq_none_iff]
  intro b hb hlt
  exact UInt8.not_le.mpr (of_decide_eq_true hlt) (h.misses j hj b hb)

theorem Surroundings.Delays.heldKey_eq_some (h : o.Delays i n k) {t : Tally} (ht : t.asked = i + n) :
    o.heldKey t = some k := by
  unfold heldKey
  rw [ht, h.key, Option.filter_some, decide_eq_true h.lt]
  rfl

theorem Session.step_of_awaitsKey {s : Session} (h : s.AwaitsKey x) (o : Surroundings) :
    s.step o = { s with pc := s.pc + 2 }.exec o (.awaitKey x) := by
  obtain ⟨w, hw, hf, hkk, rfl⟩ := h
  rw [step_of_fetches o hw, execWord_of_reads o _ (i := .awaitKey w.x) ⟨hf, hkk, rfl⟩]

/-- **An attempt in vain** leaves everything as it was, and has asked. -/
theorem Session.step_awaiting {s : Session} (h : s.AwaitsKey x) (hkey : o.heldKey s.tally = none) :
    s.step o = (.awaitingKey, { s with tally := s.tally.ask }) := by
  have hpc : s.past.here = s.pc := s.here_past
  rw [step_of_awaitsKey h]
  simp only [exec, hkey]
  exact congrArg (fun pc => (Outcome.awaitingKey, { s with pc, tally := s.tally.ask })) hpc

/-- **The attempt that gets a key** puts it in the register and goes on. -/
theorem Session.step_received {s : Session} (h : s.AwaitsKey x) (hkey : o.heldKey s.tally = some k) :
    s.step o = (.next, { s with v := s.v.setIfInBounds x k, pc := s.pc + 2, tally := s.tally.ask }) := by
  rw [step_of_awaitsKey h]
  simp only [exec, hkey]
  rfl

theorem Timers.ticks_ticks (t : Timers) (a b : Nat) : ((t.ticks a).1.ticks b).1 = (t.ticks (a + b)).1 := by
  induction b with
  | zero => rfl
  | succ b ih => rw [ticks_succ, ← Nat.add_assoc, ticks_succ, ih]

/-! ### Attempts and ticks -/

namespace Core

variable {c : Core}

/-- The core when its timers have ticked `t` times and it has asked for a key `i` times in vain. -/
def waiting (c : Core) (t i : Nat) : Core :=
  { c with board.timers := (c.board.timers.ticks t).1, tally.asked := c.tally.asked + i }

def received (c : Core) (x : Digit) (k : UInt8) : Core :=
  { c with
    processor := { c.processor with v := c.processor.v.setIfInBounds x k, pc := c.processor.pc + 2 }
    tally := c.tally.ask }

theorem perform_waiting (h : c.machine.AwaitsKey x) (hd : o.Delays c.tally.asked n k) (t : Nat) {i : Nat} (hi : i < n) :
    (c.waiting t i).perform o .step = (.ended .awaitingKey, c.waiting t (i + 1)) := by
  have hstep : (c.waiting t i).session.step o = _ := Session.step_awaiting h (hd.heldKey_eq_none hi rfl)
  unfold perform
  simp only [hstep]
  rfl

theorem perform_received (h : c.machine.AwaitsKey x) (hd : o.Delays c.tally.asked n k) (t : Nat) :
    (c.waiting t n).perform o .step = (.ended .next, (c.waiting t n).received x k) := by
  have hstep : (c.waiting t n).session.step o = _ := Session.step_received h (hd.heldKey_eq_some rfl)
  unfold perform
  simp only [hstep]
  rfl

/-- Attempts and ticks in any order come to so many of both. -/
theorem after_waiting (h : c.machine.AwaitsKey x) (hd : o.Delays c.tally.asked n k) {ops : List Op}
    (hops : ∀ op ∈ ops, op = .step ∨ op = .tick) (hn : ops.count .step ≤ n) :
    c.after o ops = c.waiting (ops.count .tick) (ops.count .step) := by
  induction ops using List.reverseRecOn with
  | nil => rfl
  | append_singleton ops op ih =>
    have hbefore : ∀ op ∈ ops, op = .step ∨ op = .tick := fun op' hop' => hops op' (List.mem_append_left _ hop')
    have hle : ops.count .step ≤ (ops ++ [op]).count .step := (List.sublist_append_left ops [op]).count_le _
    rw [after_append, ih hbefore (hle.trans hn)]
    rcases hops op (List.mem_append_right _ (List.mem_singleton.mpr rfl)) with rfl | rfl
    · have hsteps : (ops ++ [Op.step]).count .step = ops.count .step + 1 := by simp
      have hticks : (ops ++ [Op.step]).count .tick = ops.count .tick := by simp
      rw [hsteps] at hn
      have hattempt := perform_waiting h hd (ops.count .tick) hn
      rw [hsteps, hticks]
      simp only [after, List.foldl_cons, List.foldl_nil, hattempt]
    · have hsteps : (ops ++ [Op.tick]).count .step = ops.count .step := by simp
      have hticks : (ops ++ [Op.tick]).count .tick = ops.count .tick + 1 := by simp
      rw [hsteps, hticks]
      rfl

end Core

/-! ### In the hands of the runner -/

namespace Console

def kept? (c : Console) : Option Processor :=
  match c.runner with
  | .live r => some r.processor
  | .ended p => some p
  | _ => none

def atInstr (c : Console) : Bool :=
  match c.stage? with
  | some (.batch (_ + 1)) => true
  | _ => false

/-- How many instructions the runner has executed in its first `m` moves. -/
def attempts (found : Nat → Console) (m : Nat) : Nat := Nat.count (fun l => (found l).atInstr = true) m

/-- Between two moves of the runner others leave the screen alone and ask for no keys; they may tick the timers. -/
structure Attended (sc : Scenario) (due : Nat → Bool) (found : Nat → Console) : Prop extends Run sc due found where
  screen (m : Nat) : (found (m + 1)).board.screen = ((found m).turn sc (due m)).board.screen
  timers (m : Nat) : ∃ t, (found (m + 1)).board.timers = (((found m).turn sc (due m)).board.timers.ticks t).1
  asked (m : Nat) : (found (m + 1)).tally.asked = ((found m).turn sc (due m)).tally.asked

/-- The runner has, or has left, this core after `i` attempts in vain and some ticks of the timers. -/
structure Pending (c : Core) (i : Nat) (c' : Console) : Prop where
  kept : c'.kept? = some c.processor
  screen : c'.board.screen = c.board.screen
  timers : ∃ t, c'.board.timers = (c.board.timers.ticks t).1
  asked : c'.tally.asked = c.tally.asked + i
  captures : c'.OnlyCaptures

/-- **How the runner waits for a key** that comes after `n` attempts in vain. -/
structure WaitsForKey (sc : Scenario) (due : Nat → Bool) (found : Nat → Console) (c : Core) (x : Digit) (n : Nat)
    (k : UInt8) : Prop where
  /-- Whatever becomes of the run, until the key has come the machine stays, but that the timers tick. -/
  pending (m : Nat) : attempts found m ≤ n → Pending c (attempts found m) (found m)
  /-- An attempt in vain changes nothing of the machine, and ends its batch. -/
  awaiting (m : Nat) : (found m).atInstr = true → attempts found m < n →
    (found m).nextStep sc = (.awaitingKey, { (found m).session c.processor with tally := (found m).tally.ask }) ∧
      (found m).Steps sc ((found m).turn sc (due m)) ∧
      ((found m).turn sc (due m)).board.fault = (found m).board.fault ∧ (found (m + 1)).stage? = some .waiting
  /-- The next one gets the key, and its batch goes on behind it. -/
  received (m left : Nat) : (found m).stage? = some (.batch (left + 1)) → attempts found m = n →
    (found m).nextStep sc = (.next, { (found m).session c.processor with
        v := c.processor.v.setIfInBounds x k, pc := c.processor.pc + 2, tally := (found m).tally.ask }) ∧
      (found m).Steps sc ((found m).turn sc (due m)) ∧
      ((found m).turn sc (due m)).board.fault = (found m).board.fault ∧ (found (m + 1)).stage? = some (.batch left)
  /-- It comes to that if nobody stops or pauses the run and the time of every batch is over at some point. -/
  comes : (∀ m, attempts found m ≤ n → (found m).board.mode = .running) → Elapses due →
    ∃ m, (found m).atInstr = true ∧ attempts found m = n

variable {sc : Scenario} {c' : Console} {r : Runner} {c : Core} {o : Surroundings} {i n : Nat} {k : UInt8} {x : Digit}

theorem atInstr_iff : c'.atInstr = true ↔ ∃ left, c'.stage? = some (.batch (left + 1)) := by
  unfold atInstr
  split
  · next left hstage => exact iff_of_true rfl ⟨left, hstage⟩
  · next hnot => exact iff_of_false nofun fun ⟨left, hstage⟩ => hnot left hstage

theorem kept?_of_live (hlive : c'.runner = .live r) : c'.kept? = some r.processor := by
  rw [kept?, hlive]

namespace Pending

/-- What others may do between two moves of the runner. -/
theorem of_attended (h : Pending c i c') {c'' : Console} (hrunner : c''.runner = c'.runner)
    (hjobs : c''.mail.jobs = c'.mail.jobs) (hscreen : c''.board.screen = c'.board.screen)
    (htimers : ∃ t, c''.board.timers = (c'.board.timers.ticks t).1) (hasked : c''.tally.asked = c'.tally.asked) :
    Pending c i c'' where
  kept := by
    have hkept := h.kept
    unfold kept? at hkept ⊢
    rwa [hrunner]
  screen := hscreen.trans h.screen
  timers := by
    obtain ⟨t, ht⟩ := h.timers
    obtain ⟨t', ht'⟩ := htimers
    exact ⟨t + t', by rw [ht', ht, Timers.ticks_ticks]⟩
  asked := hasked.trans h.asked
  captures := by
    have hcaptures := h.captures
    unfold OnlyCaptures at hcaptures ⊢
    rwa [hjobs]

/-- Between two instructions the runner does nothing to the machine. -/
theorem pass (h : Pending c i c') (hsc : sc.Only Happening.Survives) (hnot : c'.atInstr = false) (due : Bool) :
    Pending c i (c'.turn sc due) := by
  by_cases hlives : ∃ r, c'.runner = .live r
  · obtain ⟨r, hlive⟩ := hlives
    have hkept := h.kept
    rw [kept?_of_live hlive] at hkept
    have hbetween {left : Nat} (hstage : r.stage = .batch (left + 1)) : False := by
      have hat : c'.atInstr = true := atInstr_iff.mpr ⟨left, (stage?_of_live hlive).trans (congrArg some hstage)⟩
      rw [hnot] at hat
      cases hat
    have hturned := turned hsc hlive due
    generalize c'.turn sc due = c'' at hturned ⊢
    cases hturned with
    | pass => exact ⟨hkept, h.screen, h.timers, h.asked, h.captures⟩
    | @serve ticket j jobs hstage hjobs journal =>
      have hcopy : j = .capture := h.captures (ticket, j) (hjobs ▸ List.mem_cons_self)
      subst hcopy
      have hprocessor : c'.machine.toProcessor = r.processor := by
        rw [machine, processor_of_live hlive]
        rfl
      refine ⟨?_, h.screen, h.timers, h.asked, fun job hjob => h.captures job (hjobs ▸ List.mem_cons_of_mem _ hjob)⟩
      exact (congrArg some hprocessor).trans hkept
    | step hstage | die hstage => exact (hbetween hstage).elim
    | fail => exact ⟨hkept, h.screen, h.timers, h.asked, h.captures⟩
    | leave => exact ⟨hkept, h.screen, h.timers, h.asked, fun job hjob => absurd hjob List.not_mem_nil⟩
  · rw [turn_of_not_live (not_exists.mp hlives)]
    exact h

theorem processor (h : Pending c i c') (hlive : c'.runner = .live r) : c'.processor = c.processor := by
  have hkept := h.kept
  rw [kept?_of_live hlive, Option.some.injEq] at hkept
  rw [processor_of_live hlive, hkept]

theorem awaitsKey (hawaits : c.machine.AwaitsKey x) : (c'.session c.processor).AwaitsKey x := hawaits

theorem nextStep_awaiting (h : Pending c i c') (hlive : c'.runner = .live r) (hawaits : c.machine.AwaitsKey x)
    (hd : sc.Delays c.tally.asked n k) (hi : i < n) :
    c'.nextStep sc = (.awaitingKey, { c'.session c.processor with tally := c'.tally.ask }) := by
  rw [nextStep, h.processor hlive]
  exact Session.step_awaiting (awaitsKey hawaits) (hd.heldKey_eq_none hi h.asked)

theorem nextStep_received (h : Pending c n c') (hlive : c'.runner = .live r) (hawaits : c.machine.AwaitsKey x)
    (hd : sc.Delays c.tally.asked n k) :
    c'.nextStep sc = (.next, { c'.session c.processor with
      v := c.processor.v.setIfInBounds x k, pc := c.processor.pc + 2, tally := c'.tally.ask }) := by
  rw [nextStep, h.processor hlive]
  exact Session.step_received (awaitsKey hawaits) (hd.heldKey_eq_some h.asked)

end Pending

theorem executes_turn (hcaptures : c'.OnlyCaptures) (hsc : sc.Only Happening.Survives)
    (hkeeps : sc.Only Happening.KeepsMachine) {left : Nat} (hlive : c'.runner = .live r)
    (hstage : r.stage = .batch (left + 1)) (hout : (c'.nextStep sc).1 ≠ .breakdown) (due : Bool) :
    c'.Executes sc r left (c'.turn sc due) := by
  rw [turn_instr hlive hstage]
  rcases executes_or_died (r := r) hcaptures hkeeps left with ⟨hexecutes, -⟩ | ⟨hdied, -⟩
  · exact hexecutes
  · rcases instr_of_survives hsc hlive left with ⟨hbreakdown, -⟩ | ⟨-, journal, hinstr⟩
    · exact absurd hbreakdown hout
    · rw [hinstr] at hdied
      cases (executed_agrees sc hlive left).1.symm.trans hdied

theorem Run.instr_turn {due : Nat → Bool} {found : Nat → Console} (h : Run sc due found) {m left : Nat}
    (hcaptures : (found m).OnlyCaptures) (hsc : sc.Only Happening.Survives) (hkeeps : sc.Only Happening.KeepsMachine)
    (hstage : (found m).stage? = some (.batch (left + 1))) (hout : ((found m).nextStep sc).1 ≠ .breakdown) :
    (found m).Steps sc ((found m).turn sc (due m)) ∧
      ((found m).turn sc (due m)).board.fault = (found m).board.fault ∧
      (found (m + 1)).stage? = some (afterInstr left ((found m).nextStep sc).1) := by
  obtain ⟨r, hlive, hbatch⟩ := stage?_eq_some.mp hstage
  refine ⟨steps_turn hsc hstage hout, (executes_turn hcaptures hsc hkeeps hlive hbatch hout (due m)).fault, ?_⟩
  rw [h.stage?_step hsc hlive, stageAfter?, hbatch]
  exact if_neg hout

/-- **An attempt in vain** leaves the machine as it was. -/
theorem Pending.attempt (h : Pending c i c') (hsc : sc.Only Happening.Survives) (hkeeps : sc.Only Happening.KeepsMachine)
    (hawaits : c.machine.AwaitsKey x) (hd : sc.Delays c.tally.asked n k) (hi : i < n) (hat : c'.atInstr = true)
    (due : Bool) : Pending c (i + 1) (c'.turn sc due) := by
  obtain ⟨left, hstage⟩ := atInstr_iff.mp hat
  obtain ⟨r, hlive, hbatch⟩ := stage?_eq_some.mp hstage
  have hstep := h.nextStep_awaiting hlive hawaits hd hi
  have hexecutes := executes_turn h.captures hsc hkeeps hlive hbatch (by rw [hstep]; nofun) due
  have hsession := hexecutes.session
  have hrunner := hexecutes.live
  rw [← nextStep_of_live sc hlive, hstep] at hsession hrunner
  obtain ⟨t, ht⟩ := h.timers
  refine ⟨?_, ?_, ⟨t, ?_⟩, ?_, hexecutes.captures⟩
  · exact kept?_of_live hrunner
  · exact (congrArg (·.screen) hsession).trans h.screen
  · exact (congrArg (·.toTimers) hsession).trans ht
  · have hasked : (c'.turn sc due).tally.asked = c'.tally.asked + 1 := congrArg (·.tally.asked) hsession
    rw [hasked, h.asked]
    rfl

/-! ### Over a run -/

theorem attempts_succ (found : Nat → Console) (m : Nat) :
    attempts found (m + 1) = attempts found m + if (found m).atInstr = true then 1 else 0 := Nat.count_succ ..

namespace Attended

variable {due : Nat → Bool} {found : Nat → Console}

/-- **Until the key has come the machine stays**, but that its timers tick. -/
theorem pending (h : Attended sc due found) (hsc : sc.Only Happening.Survives) (hkeeps : sc.Only Happening.KeepsMachine)
    (hstart : Pending c 0 (found 0)) (hawaits : c.machine.AwaitsKey x) (hd : sc.Delays c.tally.asked n k) {m : Nat}
    (hm : attempts found m ≤ n) : Pending c (attempts found m) (found m) := by
  induction m with
  | zero => exact hstart
  | succ m ih =>
    rw [attempts_succ] at hm ⊢
    have hbefore := ih (Nat.le_of_add_right_le hm)
    have hturn : Pending c (attempts found m + if (found m).atInstr = true then 1 else 0)
        ((found m).turn sc (due m)) := by
      split at hm
      · next hat =>
        rw [if_pos hat]
        exact hbefore.attempt hsc hkeeps hawaits hd hm hat (due m)
      · next hnot =>
        rw [if_neg hnot]
        exact hbefore.pass hsc (Bool.eq_false_iff.mpr hnot) (due m)
    exact hturn.of_attended (h.runner m) (h.jobs m) (h.screen m) (h.timers m) (h.asked m)

end Attended

/-! ### The next attempt -/

/-- A move between two instructions, while the run goes on: the next instruction comes nearer, or the runner waits on. -/
theorem nearer_turn (sc : Scenario) (hlive : c'.runner = .live r) (hworking : r.stage.Working) (hnot : c'.atInstr = false)
    (hmode : c'.board.mode = .running) (due : Bool) :
    ∃ r', (c'.turn sc due).runner = .live r' ∧ r'.stage.Working ∧
      ((c'.turn sc due).distance r' < c'.distance r ∨ due = false ∧ c'.turn sc due = c' ∧ r' = r) := by
  have hgoes {stage : Runner.Stage} (hturn : c'.turn sc due = c'.runnerAt r stage) (hstage : stage.Working)
      (hless : c'.distance { r with stage } < c'.distance r) :
      ∃ r', (c'.turn sc due).runner = .live r' ∧ r'.stage.Working ∧
        ((c'.turn sc due).distance r' < c'.distance r ∨ due = false ∧ c'.turn sc due = c' ∧ r' = r) := by
    refine ⟨{ r with stage }, congrArg (·.runner) hturn, hstage, .inl ?_⟩
    rw [hturn]
    exact hless
  have hmove : c'.turn sc due = c'.runnerMove sc due r := turn_of_live hlive due
  rw [runnerMove] at hmove
  cases hstage : r.stage with
  | serving =>
    rw [hstage] at hmove
    rcases hjobs : c'.mail.jobs with _ | ⟨⟨ticket, j⟩, jobs⟩
    · have hlooks : c'.serve r = c'.runnerAt r .looking := by rw [serve, hjobs]
      refine hgoes (hmove.trans hlooks) trivial ?_
      simp only [distance, hstage, hjobs]
      decide
    · obtain ⟨journal, hserve⟩ := serve_cons hlive hjobs
      rw [hmove, hserve]
      refine ⟨_, rfl, ?_, .inl ?_⟩
      · rw [hstage]
        trivial
      · simp only [distance, hstage, hjobs, List.length_cons, Mailbox.reply]
        omega
  | looking =>
    rw [hstage] at hmove
    simp only [look, hmode] at hmove
    refine hgoes hmove trivial ?_
    simp only [distance, hstage]
    decide
  | sizing =>
    rw [hstage] at hmove
    -- a batch is never empty
    have hpos : 1 ≤ (Settings.perBatch c'.board.rate r.batchRate).toNat := Settings.one_le_perBatch ..
    obtain ⟨left, hleft⟩ := Nat.exists_eq_add_of_le' hpos
    refine hgoes hmove trivial ?_
    simp only [distance, hstage, hleft]
    decide
  | batch left =>
    cases left with
    | zero =>
      rw [hstage] at hmove
      refine hgoes hmove trivial ?_
      simp only [distance, hstage]
      omega
    | succ left =>
      rw [atInstr_iff.mpr ⟨left, (stage?_of_live hlive).trans (congrArg some hstage)⟩] at hnot
      cases hnot
  | waiting =>
    rw [hstage] at hmove
    cases due with
    | true =>
      refine hgoes hmove trivial ?_
      simp only [distance, hstage]
      omega
    | false =>
      have hstays : c'.turn sc false = c' := by
        rw [hmove, hmode]
        rfl
      rw [hstays]
      exact ⟨r, hlive, hworking, .inr ⟨rfl, rfl, rfl⟩⟩
  | failing f | leaving =>
    rw [hstage] at hworking
    exact hworking.elim

theorem distance_congr {c'' : Console} (hjobs : c''.mail.jobs = c'.mail.jobs) (r : Runner) :
    c''.distance r = c'.distance r := by
  unfold distance
  rw [hjobs]

/-- **While the run goes on there is a next instruction.** -/
theorem Run.comes_to_instr {due : Nat → Bool} {found : Nat → Console} (h : Run sc due found)
    (hrunning : ∀ m, attempts found m ≤ n → (found m).board.mode = .running) (helapses : Elapses due) {m : Nat}
    (hlive : (found m).runner = .live r) (hworking : r.stage.Working) (hm : attempts found m ≤ n) :
    ∃ d, (found (m + d)).atInstr = true ∧ attempts found (m + d) = attempts found m := by
  -- by induction on the distance, and where the runner waits on, on the time until the clock tells it to go on
  induction hfar : (found m).distance r using Nat.strongRecOn generalizing m r with
  | ind far ih =>
    obtain ⟨l, hle, hdue⟩ := helapses m
    obtain ⟨late, rfl⟩ := Nat.exists_eq_add_of_le hle
    induction late using Nat.strongRecOn generalizing m with
    | ind late ihlate =>
      cases hat : (found m).atInstr with
      | true => exact ⟨0, hat, rfl⟩
      | false =>
        have hnone : attempts found (m + 1) = attempts found m := by rw [attempts_succ, hat]; rfl
        have hlater (d : Nat) : m + 1 + d = m + (d + 1) := by omega
        obtain ⟨r', hlive', hworking', hnearer⟩ := nearer_turn sc hlive hworking hat (hrunning m hm) (due m)
        rw [← h.runner m] at hlive'
        rcases hnearer with hnearer | ⟨hlate, hstays, rfl⟩
        · rw [← distance_congr (h.jobs m), hfar] at hnearer
          obtain ⟨d, hcomes, hsofar⟩ := ih _ hnearer hlive' hworking' (hnone.trans_le hm) rfl
          rw [hlater] at hcomes hsofar
          exact ⟨d + 1, hcomes, hsofar.trans hnone⟩
        · have hfar' : (found (m + 1)).distance r' = far := by rw [distance_congr (h.jobs m), hstays, hfar]
          cases late with
          | zero =>
            rw [Nat.add_zero, hlate] at hdue
            cases hdue
          | succ late =>
            obtain ⟨d, hcomes, hsofar⟩ :=
              ihlate late (Nat.lt_succ_self late) hlive' (hnone.trans_le hm) hfar' (by omega) (by rwa [hlater])
            rw [hlater] at hcomes hsofar
            exact ⟨d + 1, hcomes, hsofar.trans hnone⟩

namespace Attended

variable {due : Nat → Bool} {found : Nat → Console}

/-- **A runner waits for a key** without doing anything else to the machine. -/
theorem waitsForKey (h : Attended sc due found) (hsc : sc.Only Happening.Survives)
    (hkeeps : sc.Only Happening.KeepsMachine) (hlive : (found 0).runner = .live r) (hworking : r.stage.Working)
    (hstart : Pending c 0 (found 0)) (hawaits : c.machine.AwaitsKey x) (hd : sc.Delays c.tally.asked n k) :
    WaitsForKey sc due found c x n k := by
  have hpending {m : Nat} (hm : attempts found m ≤ n) := h.pending hsc hkeeps hstart hawaits hd hm
  have hawaiting (m : Nat) (hat : (found m).atInstr = true) (hm : attempts found m < n) :
      (found m).nextStep sc = (.awaitingKey, { (found m).session c.processor with tally := (found m).tally.ask }) ∧
        (found m).Steps sc ((found m).turn sc (due m)) ∧
        ((found m).turn sc (due m)).board.fault = (found m).board.fault ∧ (found (m + 1)).stage? = some .waiting := by
    obtain ⟨left, hstage⟩ := atInstr_iff.mp hat
    obtain ⟨r', hlive', -⟩ := stage?_eq_some.mp hstage
    have hbefore := hpending hm.le
    have hstep := hbefore.nextStep_awaiting hlive' hawaits hd hm
    have hturn := h.toRun.instr_turn hbefore.captures hsc hkeeps hstage (by rw [hstep]; nofun)
    rw [hstep] at hturn
    exact ⟨hstep, hturn⟩
  refine ⟨fun m hm => hpending hm, hawaiting, fun m left hstage hm => ?_, fun hrunning helapses => ?_⟩
  · obtain ⟨r', hlive', -⟩ := stage?_eq_some.mp hstage
    have hbefore := hpending hm.le
    rw [hm] at hbefore
    have hstep := hbefore.nextStep_received hlive' hawaits hd
    have hturn := h.toRun.instr_turn hbefore.captures hsc hkeeps hstage (by rw [hstep]; nofun)
    rw [hstep] at hturn
    exact ⟨hstep, hturn⟩
  · have heach (i : Nat) (hi : i ≤ n) : ∃ m, (found m).atInstr = true ∧ attempts found m = i := by
      induction i with
      | zero =>
        obtain ⟨d, hat, hnone⟩ := h.comes_to_instr hrunning helapses hlive hworking (Nat.zero_le n)
        exact ⟨0 + d, hat, hnone⟩
      | succ i ih =>
        obtain ⟨m, hat, hm⟩ := ih (Nat.le_of_succ_le hi)
        obtain ⟨-, -, -, hstage⟩ := hawaiting m hat (hm ▸ hi)
        obtain ⟨r', hlive', hwaiting⟩ := stage?_eq_some.mp hstage
        have hone : attempts found (m + 1) = i + 1 := by rw [attempts_succ, hat, hm]; rfl
        obtain ⟨d, hat', hnone⟩ :=
          h.comes_to_instr hrunning helapses hlive' (hwaiting ▸ trivial) (hone.trans_le hi)
        exact ⟨m + 1 + d, hat', hnone.trans hone⟩
    exact heach n (Nat.le_refl n)

end Attended

/-- **Waiting for a key changes nothing.**  Let the next instruction of a machine await a key, and let it come after `n`
attempts in vain.  Attempts and ticks in any order leave all as it was but what ticks do, and the questions are counted; the
next attempt puts the key in its register and goes on.  In the hands of a runner it is the same: every attempt in vain
ends a batch, and between two of them the machine is at rest, whatever others do to the run; and the key is got if the run
goes on. -/
theorem key_wait (hawaits : c.machine.AwaitsKey x) (hd : sc.Delays c.tally.asked n k) :
    (∀ ops : List Core.Op, (∀ op ∈ ops, op = .step ∨ op = .tick) → ops.count .step ≤ n →
      c.after sc.toSurroundings ops = c.waiting (ops.count .tick) (ops.count .step) ∧
      (c.after sc.toSurroundings ops).perform sc.toSurroundings .step =
        if ops.count .step < n then (.ended .awaitingKey, c.waiting (ops.count .tick) (ops.count .step + 1))
        else (.ended .next, (c.waiting (ops.count .tick) n).received x k)) ∧
    ∀ (due : Nat → Bool) (found : Nat → Console) (r : Runner), Attended sc due found → (found 0).runner = .live r →
      r.stage.Working → (found 0).core r.processor = c → (found 0).OnlyCaptures → sc.Only Happening.Survives →
      sc.Only Happening.KeepsMachine → WaitsForKey sc due found c x n k := by
  refine ⟨fun ops hops hn => ?_, fun due found r h hlive hworking hcore hcaptures hsc hkeeps => ?_⟩
  · have hafter := Core.after_waiting hawaits hd hops hn
    refine ⟨hafter, ?_⟩
    rw [hafter]
    split
    · next hlt => exact Core.perform_waiting hawaits hd _ hlt
    · next hnot =>
      have hlast : ops.count .step = n := Nat.le_antisymm hn (Nat.not_lt.mp hnot)
      rw [hlast]
      exact Core.perform_received hawaits hd _
  · subst hcore
    exact h.waitsForKey hsc hkeeps hlive hworking ⟨kept?_of_live hlive, rfl, ⟨0, rfl⟩, rfl, hcaptures⟩ hawaits hd

/-- A runner whose program awaits a key, with timers that tick after each of its moves. -/
def drumming : Nat → Console
  | 0 => { astray with board.timers := { delay := 9, sound := 4 } }
  | m + 1 =>
    let c := (drumming m).turn meddling true
    { c with board := c.board.tick.1 }

/-- The first question is answered with no key, the second one, in the next batch, with the key `5`. -/
theorem key_wait_drumming :
    (drumming 9).board.timers = {} ∧ (drumming 9).kept? = some stray ∧
      ((drumming 9).nextStep meddling).2.toProcessor = { stray with v := stray.v.setIfInBounds 0 5, pc := 0x202 } ∧
      (drumming 10).stage? = some (.batch 0) := by
  have hawaits : ((drumming 0).core stray).machine.AwaitsKey 0 :=
    ⟨0xF00A, Machine.fetches_iff.mpr (by decide +kernel), by decide, by decide, by decide⟩
  have hd : meddling.Delays ((drumming 0).core stray).tally.asked 1 5 := by
    refine ⟨fun j hj b hb => ?_, rfl, by decide⟩
    rw [Nat.lt_one_iff.mp hj] at hb
    cases hb
  have hattended : Attended meddling (fun _ => true) drumming :=
    { runner := fun _ => rfl, jobs := fun _ => rfl, screen := fun _ => rfl, timers := fun _ => ⟨1, rfl⟩,
      asked := fun _ => rfl }
  have hsurvives : meddling.Only Happening.Survives := by
    intro m
    refine ⟨fun y hy => ?_, nofun⟩
    rcases List.mem_cons.mp hy with rfl | hy
    · trivial
    · rw [List.mem_singleton.mp hy]
      trivial
  have hwaits := (key_wait hawaits hd).2 (fun _ => true) drumming _ hattended rfl trivial rfl nofun hsurvives
    only_meddling.keepsMachine
  have hattempts : attempts drumming 9 = 1 := by decide +kernel
  have hstage : (drumming 9).stage? = some (.batch 1) := by decide +kernel
  obtain ⟨hstep, -, -, hgoes⟩ := hwaits.received 9 0 hstage hattempts
  refine ⟨by decide +kernel, (hwaits.pending 9 hattempts.le).kept, ?_, hgoes⟩
  rw [hstep]
  rfl

end Console

end

end ChipEight
