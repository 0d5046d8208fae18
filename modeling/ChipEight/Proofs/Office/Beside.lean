import ChipEight.Proofs.Office.Progress

/-!
# Consoles side by side

Two consoles that differ in their journals, their mailboxes and their state files stay like that while both do the same,
as long as nobody looks into the files.

* `StateFile.Akin` : a file that can be written anew is like any other.
* `Console.Beside` : the same but for journal, mailbox and state file.
* `Console.Level` : and no job and no reply is left over.
* `Scene.level_clocked`, `Level.act` : what a clock or the desk does.
-/

namespace ChipEight

/-! ### State files -/

namespace StateFile

def Open (f : StateFile) : Prop := f = .absent ∨ ∃ bytes, f = .regular bytes

def Akin (f g : StateFile) : Prop := f = g ∨ f.Open ∧ g.Open

variable {f f' g : StateFile}

theorem Akin.refl (f : StateFile) : f.Akin f := .inl rfl

theorem create_of_open (h : f.Open) : f.create = .ok (.regular []) := by
  rcases h with rfl | ⟨bytes, rfl⟩ <;> rfl

theorem Akin.create_eq (h : f.Akin g) : f.create = g.create := by
  rcases h with rfl | ⟨hf, hg⟩
  · rfl
  · rw [create_of_open hf, create_of_open hg]

/-- A file that was emptied is akin to what it was. -/
theorem Akin.of_create (h : f.Akin g) (hf : f.create = .ok f') : f'.Akin g := by
  have hopen (hf : f.Open) (hg : g.Open) (heq : f.create = .ok f') : f'.Akin g := by
    rw [create_of_open hf] at heq
    cases heq
    exact .inr ⟨.inr ⟨[], rfl⟩, hg⟩
  rcases h with rfl | ⟨hf', hg⟩
  · cases f with
    | absent => exact hopen (.inl rfl) (.inl rfl) hf
    | regular bytes => exact hopen (.inr ⟨bytes, rfl⟩) (.inr ⟨bytes, rfl⟩) hf
    | refused | locked => cases hf
    | sink | full =>
      cases hf
      exact .refl _
  · exact hopen hf' hg hf

theorem Akin.append (h : f.Akin g) (bytes : List UInt8) :
    f = g ∨ ∃ f' g', f.append bytes = .ok f' ∧ g.append bytes = .ok g' ∧ f'.Akin g' := by
  have hopen {f : StateFile} (hf : f.Open) : ∃ f', f.append bytes = .ok f' ∧ f'.Open := by
    rcases hf with rfl | ⟨old, rfl⟩
    · exact ⟨.absent, rfl, .inl rfl⟩
    · exact ⟨_, rfl, .inr ⟨_, rfl⟩⟩
  rcases h with rfl | ⟨hf, hg⟩
  · exact .inl rfl
  · obtain ⟨f', hf', hopen'⟩ := hopen hf
    obtain ⟨g', hg', hopen''⟩ := hopen hg
    exact .inr ⟨f', g', hf', hg', .inr ⟨hopen', hopen''⟩⟩

/-- A file that something was added to is akin to what it was. -/
theorem Akin.of_append (h : f.Akin g) {bytes : List UInt8} (hf : f.append bytes = .ok f') : f'.Akin g := by
  cases f with
  | regular old =>
    cases hf
    rcases h with rfl | ⟨-, hg⟩
    · exact .inr ⟨.inr ⟨_, rfl⟩, .inr ⟨_, rfl⟩⟩
    · exact .inr ⟨.inr ⟨_, rfl⟩, hg⟩
  | full =>
    simp only [StateFile.append] at hf
    split at hf
    · cases hf
      exact h
    · cases hf
  | absent | refused | locked | sink =>
    cases hf
    exact h

end StateFile

/-! ### Consoles -/

namespace Console

/-- The consoles differ in journal, mailbox and state file only, and the files are akin. -/
def Beside (c d : Console) : Prop :=
  ∃ mail file journal, d = { c with mail, file, journal } ∧ c.file.Akin file

structure Level (c d : Console) : Prop where
  beside : c.Beside d
  quiet : c.mail.Quiet
  quiet' : d.mail.Quiet

namespace Beside

variable {sc : Scenario} {c d : Console} {r : Runner}

theorem board_eq (h : c.Beside d) : d.board = c.board := by
  obtain ⟨mail, file, journal, rfl, -⟩ := h
  rfl

theorem runner_eq (h : c.Beside d) : d.runner = c.runner := by
  obtain ⟨mail, file, journal, rfl, -⟩ := h
  rfl

theorem metronome_eq (h : c.Beside d) : d.metronome = c.metronome := by
  obtain ⟨mail, file, journal, rfl, -⟩ := h
  rfl

theorem desk_eq (h : c.Beside d) : d.desk = c.desk := by
  obtain ⟨mail, file, journal, rfl, -⟩ := h
  rfl

theorem akin (h : c.Beside d) : c.file.Akin d.file := by
  obtain ⟨mail, file, journal, rfl, hakin⟩ := h
  exact hakin

theorem journals (h : c.Beside d) (journal journal' : Journal) :
    { c with journal }.Beside { d with journal := journal' } := by
  obtain ⟨mail, file, _, rfl, hakin⟩ := h
  exact ⟨mail, file, journal', rfl, hakin⟩

theorem upcoming_eq (h : c.Beside d) (r : Runner) : d.upcoming sc r = c.upcoming sc r := by
  obtain ⟨mail, file, journal, rfl, -⟩ := h
  rfl

theorem tally_eq (h : c.Beside d) : d.tally = c.tally := by
  obtain ⟨mail, file, journal, rfl, -⟩ := h
  rfl

theorem resume (h : c.Beside d) (r : Runner) (s : Session) : (c.resume r s).Beside (d.resume r s) := by
  obtain ⟨mail, file, journal, rfl, hakin⟩ := h
  exact ⟨mail, file, journal, rfl, hakin⟩

theorem happen (h : c.Beside d) (x : Happening) : (c.happen x).Beside (d.happen x) := by
  obtain ⟨mail, file, journal, rfl, hakin⟩ := h
  cases x with
  | post j => exact ⟨_, file, journal, rfl, hakin⟩
  | _ => exact ⟨mail, file, journal, rfl, hakin⟩

theorem foldl_happen (h : c.Beside d) (xs : List Happening) :
    (xs.foldl Console.happen c).Beside (xs.foldl Console.happen d) := by
  induction xs generalizing c d with
  | nil => exact h
  | cons x xs ih => exact ih (h.happen x)

theorem executed (h : c.Beside d) (r : Runner) (left : Nat) : (c.executed sc r left).Beside (d.executed sc r left) := by
  obtain ⟨journal, hexecuted⟩ := exists_executed_eq sc c r left
  obtain ⟨journal', hexecuted'⟩ := exists_executed_eq sc d r left
  rw [hexecuted, hexecuted', h.upcoming_eq, h.tally_eq]
  exact ((h.resume _ _).journals journal journal').foldl_happen _

theorem loseRunner (h : c.Beside d) : c.loseRunner.Beside d.loseRunner := by
  obtain ⟨mail, file, journal, rfl, hakin⟩ := h
  exact ⟨mail.close, file, journal, rfl, hakin⟩

theorem instr (h : c.Beside d) (r : Runner) (left : Nat) : (c.instr sc r left).Beside (d.instr sc r left) := by
  have hexecuted : (c.executed sc r left).Beside (d.executed sc r left) := h.executed r left
  rw [instr_eq, instr_eq, h.upcoming_eq, h.tally_eq]
  cases (c.upcoming sc r).1 with
  | fault f => exact hexecuted.journals _ _
  | breakdown => exact hexecuted.loseRunner
  | _ =>
    dsimp only
    split
    · exact hexecuted.loseRunner
    · exact hexecuted

/-- Both runners make the same move, if they take no job. -/
theorem runnerMove (h : c.Beside d) (hjobs : r.stage = .serving → c.mail.jobs = [] ∧ d.mail.jobs = []) (due : Bool) :
    (c.runnerMove sc due r).Beside (d.runnerMove sc due r) := by
  unfold Console.runnerMove
  cases hstage : r.stage with
  | serving =>
    obtain ⟨hjobs, hjobs'⟩ := hjobs hstage
    simp only [serve, hjobs, hjobs']
    obtain ⟨mail, file, journal, rfl, hakin⟩ := h
    exact ⟨mail, file, journal, rfl, hakin⟩
  | looking =>
    obtain ⟨mail, file, journal, rfl, hakin⟩ := h
    simp only [look]
    split <;> exact ⟨mail, file, _, rfl, hakin⟩
  | batch left =>
    cases left with
    | zero =>
      obtain ⟨mail, file, journal, rfl, hakin⟩ := h
      exact ⟨mail, file, journal, rfl, hakin⟩
    | succ left => exact h.instr r left
  | waiting =>
    obtain ⟨mail, file, journal, rfl, hakin⟩ := h
    dsimp only
    split <;> exact ⟨mail, file, journal, rfl, hakin⟩
  | sizing | failing =>
    obtain ⟨mail, file, journal, rfl, hakin⟩ := h
    exact ⟨mail, file, journal, rfl, hakin⟩
  | leaving =>
    obtain ⟨mail, file, journal, rfl, hakin⟩ := h
    exact ⟨mail.close, file, journal, rfl, hakin⟩

theorem metronomeMove (h : c.Beside d) (due : Bool) (m : Metronome) :
    (c.metronomeMove sc due m).Beside (d.metronomeMove sc due m) := by
  obtain ⟨mail, file, journal, rfl, hakin⟩ := h
  unfold Console.metronomeMove
  cases m with
  | looking =>
    dsimp only
    split
    · exact ⟨mail, file, journal, rfl, hakin⟩
    · exact ⟨mail, file, journal, rfl, hakin⟩
    · split <;> exact ⟨mail, file, journal, rfl, hakin⟩
  | ticking | silencing | leaving => exact ⟨mail, file, journal, rfl, hakin⟩

end Beside

/-! ### JobsAlike -/

/-- A runner that takes no job leaves the mailbox alone, or closes it when it goes. -/
theorem mail_runnerMove {sc : Scenario} {c : Console} {r : Runner} (hsc : sc.Only Happening.Apart)
    (hlive : c.runner = .live r) (hjobs : r.stage = .serving → c.mail.jobs = []) (due : Bool) :
    (c.runnerMove sc due r).mail = c.mail ∧ (∃ r', (c.runnerMove sc due r).runner = .live r') ∨
      (c.runnerMove sc due r).mail = c.mail.close ∧ ∀ r', (c.runnerMove sc due r).runner ≠ .live r' := by
  rcases batch_or_between r with ⟨left, hstage⟩ | hmid
  · rw [runnerMove_of_batch hstage]
    obtain ⟨c', ⟨-, hmail, r', hlive', -, -⟩, hinstr | hinstr⟩ := instr_eq_or (c := c) hsc r left
    · rw [hinstr]
      exact .inl ⟨hmail, r', hlive'⟩
    · rw [hinstr]
      exact .inr ⟨congrArg Mailbox.close hmail, by rintro _ ⟨⟩⟩
  · refine ((betweenInstrs_runnerMove hmid due).mail hjobs).imp (And.imp id fun hruns => ?_) id
    rcases hruns with hsame | hruns
    · exact ⟨r, hsame.trans hlive⟩
    · exact hruns

/-- What is remembered of the move of a runner that takes no job. -/
theorem Beside.events_eq {c c' d d' : Console} {r : Runner} (h : c'.Beside d')
    (hjobs : r.stage = .serving → c.mail.jobs = [] ∧ d.mail.jobs = []) : r.events d d' = r.events c c' := by
  unfold Runner.events
  cases hstage : r.stage with
  | serving =>
    obtain ⟨hjobs, hjobs'⟩ := hjobs hstage
    simp only [hjobs, hjobs']
  | batch left =>
    cases left with
    | zero => rfl
    | succ left =>
      dsimp only
      rw [h.runner_eq]
  | _ => rfl

end Console

/-! ### Turns of the clocks -/

namespace Scene

variable {sc : Scenario} {s v : Scene}

/-- Two scenes in which the same has happened since. -/
def Alike (s v s' v' : Scene) : Prop := ∃ es, s'.past = s.past ++ es ∧ v'.past = v.past ++ es

theorem Alike.refl (s v : Scene) : Alike s v s v := ⟨[], (List.append_nil _).symm, (List.append_nil _).symm⟩

/-- **A turn of a clock** that takes no job. -/
theorem beside_clocked (h : s.console.Beside v.console) {t : Turn}
    (hjobs : ∀ r due, t = .runner due → s.console.runner = .live r → r.stage = .serving →
      s.console.mail.jobs = [] ∧ v.console.mail.jobs = []) :
    (s.clocked sc t).console.Beside (v.clocked sc t).console ∧ Alike s v (s.clocked sc t) (v.clocked sc t) := by
  cases t with
  | runner due =>
    simp only [clocked, h.runner_eq]
    cases hrunner : s.console.runner with
    | live r =>
      have hmoved : (s.console.runnerMove sc due r).Beside (v.console.runnerMove sc due r) :=
        h.runnerMove (hjobs r due rfl hrunner) due
      refine ⟨hmoved, r.events s.console (s.console.runnerMove sc due r), rfl, ?_⟩
      dsimp only
      rw [hmoved.events_eq (hjobs r due rfl hrunner)]
    | none | ended | died => exact ⟨h, .refl s v⟩
  | metronome due fatal =>
    simp only [clocked, h.metronome_eq]
    cases s.console.metronome with
    | live m => exact ⟨h.metronomeMove due m, m.events, rfl, rfl⟩
    | none | ended | died => exact ⟨h, .refl s v⟩
  | desk | call | refuse | file => exact ⟨h, .refl s v⟩

theorem quiet_clocked (hsc : sc.Only Happening.Apart) (h : s.console.mail.Quiet) (t : Turn) :
    (s.clocked sc t).console.mail.Quiet := by
  have hdrift : s.Drifts sc (s.clocked sc t) := (Drifts.refl s).clocked hsc t
  refine hdrift.induct (P := fun s' => s'.console.mail.Quiet) (fun h hmoves => ?_) h
  obtain ⟨hjobs, hreplies⟩ := hmoves.mail_eq h.1
  exact ⟨hjobs, hreplies.trans h.2⟩

/-- **A turn of a clock** leaves level consoles level. -/
theorem level_clocked (hsc : sc.Only Happening.Apart) (h : s.console.Level v.console) (t : Turn) :
    (s.clocked sc t).console.Level (v.clocked sc t).console ∧ Alike s v (s.clocked sc t) (v.clocked sc t) := by
  obtain ⟨hbeside, halike⟩ : (s.clocked sc t).console.Beside (v.clocked sc t).console ∧
      Alike s v (s.clocked sc t) (v.clocked sc t) :=
    beside_clocked h.beside fun _ _ _ _ _ => ⟨h.quiet.1, h.quiet'.1⟩
  exact ⟨⟨hbeside, quiet_clocked hsc h.quiet t, quiet_clocked hsc h.quiet' t⟩, halike⟩

end Scene

/-! ### Actions of the desk -/

def Action.Plain : Action → Prop
  | .post _ | .collect _ => False
  | _ => True

namespace Console.Level

variable {c d : Console}

theorem refuses (h : c.Level d) (n : Nat) : { c with refusal := n }.Level { d with refusal := n } := by
  obtain ⟨⟨mail, file, journal, rfl, hakin⟩, hquiet, hquiet'⟩ := h
  exact ⟨⟨mail, file, journal, rfl, hakin⟩, hquiet, hquiet'⟩

theorem filed (h : c.Level d) (f : StateFile) : { c with file := f }.Level { d with file := f } := by
  obtain ⟨⟨mail, file, journal, rfl, -⟩, hquiet, hquiet'⟩ := h
  exact ⟨⟨mail, f, journal, rfl, .refl f⟩, hquiet, hquiet'⟩

structure Acted (c d : Console) (a : Action) (x : a.Answer × Console) (y : a.Answer × Console) : Prop where
  answer : y.1 = x.1
  level : x.2.Level y.2
  file : d.file = c.file → y.2.file = x.2.file
  created : a = .createFile → y.2.file = x.2.file

/-- **An action** that both desks do has the same answer and leaves the consoles level. -/
theorem act (h : c.Level d) {a : Action} (ha : a.Plain) (hread : a = .readFile → d.file = c.file) :
    Option.Rel (Acted c d a) (c.act a) (d.act a) := by
  obtain ⟨⟨mail, file, journal, rfl, hakin⟩, hquiet, hquiet'⟩ := h
  have hempty : ({} : Mailbox).Quiet := ⟨rfl, rfl⟩
  cases a with
  | post | collect => exact ha.elim
  | spawnRunner =>
    by_cases hrefused : (c.refusal == 1) = true
    · simp only [Console.act, Console.spawnRunner, countThread, hrefused]
      exact .some ⟨rfl, ⟨⟨mail, file, _, rfl, hakin⟩, hquiet, hquiet'⟩, id, by simp⟩
    · simp only [Console.act, Console.spawnRunner, countThread, hrefused]
      exact .some ⟨rfl, ⟨⟨{}, file, _, rfl, hakin⟩, hempty, hempty⟩, id, by simp⟩
  | spawnMetronome =>
    by_cases hrefused : (c.refusal == 1) = true
    all_goals
      simp only [Console.act, Console.spawnMetronome, countThread, hrefused]
      exact .some ⟨rfl, ⟨⟨mail, file, _, rfl, hakin⟩, hquiet, hquiet'⟩, id, by simp⟩
  | joinRunner =>
    simp only [Console.act, Console.joinRunner]
    split
    · exact .none
    all_goals exact .some ⟨rfl, ⟨⟨mail, file, _, rfl, hakin⟩, hquiet, hquiet'⟩, id, by simp⟩
  | joinMetronome =>
    simp only [Console.act, Console.joinMetronome]
    split
    · exact .none
    all_goals exact .some ⟨rfl, ⟨⟨mail, file, _, rfl, hakin⟩, hquiet, hquiet'⟩, id, by simp⟩
  | createFile =>
    simp only [Console.act, ← hakin.create_eq]
    split
    · exact .some ⟨rfl, ⟨⟨mail, _, _, rfl, .refl _⟩, hquiet, hquiet'⟩, fun _ => rfl, fun _ => rfl⟩
    · next e hcreate =>
      have hsame : file = c.file := by
        rcases hakin with heq | ⟨hopen, -⟩
        · exact heq.symm
        · rw [StateFile.create_of_open hopen] at hcreate
          cases hcreate
      exact .some ⟨rfl, ⟨⟨mail, file, _, rfl, hakin⟩, hquiet, hquiet'⟩, id, fun _ => hsame⟩
  | appendFile bytes =>
    rcases hakin.append bytes with rfl | ⟨f', g', hf', hg', hakin'⟩
    · simp only [Console.act]
      split
      · exact .some ⟨rfl, ⟨⟨mail, _, _, rfl, .refl _⟩, hquiet, hquiet'⟩, fun _ => rfl, by simp⟩
      · exact .some ⟨rfl, ⟨⟨mail, _, _, rfl, .refl _⟩, hquiet, hquiet'⟩, fun _ => rfl, by simp⟩
    · simp only [Console.act, hf', hg']
      refine .some ⟨rfl, ⟨⟨mail, g', _, rfl, hakin'⟩, hquiet, hquiet'⟩, fun hsame => ?_, by simp⟩
      obtain rfl : file = c.file := hsame
      exact Except.ok.inj (hg'.symm.trans hf')
  | readFile =>
    obtain rfl : file = c.file := hread rfl
    exact .some ⟨rfl, ⟨⟨mail, _, _, rfl, .refl _⟩, hquiet, hquiet'⟩, id, by simp⟩
  | _ => exact .some ⟨rfl, ⟨⟨mail, file, _, rfl, hakin⟩, hquiet, hquiet'⟩, id, by simp⟩

end Console.Level

end ChipEight
