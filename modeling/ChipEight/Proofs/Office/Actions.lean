import ChipEight.Console.Turn

/-!
# What an action of the desk changes

The single steps that the methods of `Machine` take.

* `Console.of_spawnRunner`, `Console.of_joinRunner`, ... : what is left by those that can turn out in several ways.
* `Console.Footprint` : part by part, the actions that may change it.
* `Console.footprint_of_act` : every action keeps to it.
-/

namespace ChipEight

namespace Console

variable {c c' : Console} {made whole : Bool} {ticket : Nat}

/-! ### Threads -/

def bereft (c : Console) : Console :=
  { c with refusal := c.refusal - 1, desk := { c.desk with parked := .powerOn } }

def begun (c : Console) : Console :=
  { c.bereft with
    runner := .live { processor := c.desk.parked, batchRate := c.desk.settings.batchRate }
    mail := {} }.note .runner (.runnerStarted c.desk.parked.pc)

theorem of_spawnRunner (hact : c.act .spawnRunner = some (made, c')) :
    made = false ∧ c.refusal = 1 ∧ c' = c.bereft ∨ made = true ∧ c.refusal ≠ 1 ∧ c' = c.begun := by
  simp only [act, spawnRunner, countThread] at hact
  cases hrefused : c.refusal == 1 with
  | true =>
    simp only [hrefused, if_true] at hact
    cases hact
    exact .inl ⟨rfl, beq_iff_eq.mp hrefused, rfl⟩
  | false =>
    simp only [hrefused, Bool.false_eq_true, if_false] at hact
    cases hact
    exact .inr ⟨rfl, beq_eq_false_iff_ne.mp hrefused, rfl⟩

theorem of_spawnMetronome (hact : c.act .spawnMetronome = some (made, c')) :
    made = false ∧ c.refusal = 1 ∧ c' = { c with refusal := c.refusal - 1 } ∨
      made = true ∧ c.refusal ≠ 1 ∧ c' = { c with refusal := c.refusal - 1, metronome := .live .looking } := by
  simp only [act, spawnMetronome, countThread] at hact
  cases hrefused : c.refusal == 1 with
  | true =>
    simp only [hrefused, if_true] at hact
    cases hact
    exact .inl ⟨rfl, beq_iff_eq.mp hrefused, rfl⟩
  | false =>
    simp only [hrefused, Bool.false_eq_true, if_false] at hact
    cases hact
    exact .inr ⟨rfl, beq_eq_false_iff_ne.mp hrefused, rfl⟩

/-- Who joins a runner has its processor, if it did not die. -/
theorem of_joinRunner (hact : c.act .joinRunner = some (whole, c')) :
    c.runner = .none ∧ whole = true ∧ c' = c ∨
      (∃ p, c.runner = .ended p ∧ whole = true ∧
        c' = { c with runner := .none, desk := { c.desk with parked := p } }) ∨
      c.runner = .died ∧ whole = false ∧
        c' = { c with runner := .none, desk := { c.desk with parked := .powerOn } } := by
  simp only [act, joinRunner] at hact
  split at hact
  · cases hact
  · next hnone =>
    cases hact
    exact .inl ⟨hnone, rfl, rfl⟩
  · next p hended =>
    cases hact
    exact .inr (.inl ⟨p, hended, rfl, rfl⟩)
  · next hdied =>
    cases hact
    exact .inr (.inr ⟨hdied, rfl, rfl⟩)

/-- When the metronome is joined there is none. -/
theorem of_joinMetronome (hact : c.act .joinMetronome = some (whole, c')) :
    c' = { c with metronome := .none } ∧ ∀ m, c.metronome ≠ .live m := by
  simp only [act, joinMetronome] at hact
  cases hmetronome : c.metronome with
  | live m =>
    rw [hmetronome] at hact
    cases hact
  | none =>
    rw [hmetronome] at hact
    cases hact
    exact ⟨by rw [← hmetronome], nofun⟩
  | ended u | died =>
    rw [hmetronome] at hact
    cases hact
    exact ⟨rfl, nofun⟩

/-! ### Mail -/

theorem of_post {j : Job} {sent : Option Nat} (hact : c.act (.post j) = some (sent, c')) :
    (∃ r, c.runner = .live r ∧ sent = some c.mail.next ∧ c' = { c with mail := c.mail.post j }) ∨
      (∀ r, c.runner ≠ .live r) ∧ sent = none ∧ c' = c := by
  simp only [act, post] at hact
  split at hact
  · next r hlive =>
    cases hact
    exact .inl ⟨r, hlive, rfl, rfl⟩
  · next hgone =>
    cases hact
    exact .inr ⟨hgone, rfl, rfl⟩

/-- There was a reply, and it is taken, or nobody will reply any more. -/
theorem of_collect {reply : Option Reply} (hact : c.act (.collect ticket) = some (reply, c')) :
    (∃ r, (ticket, r) ∈ c.mail.replies ∧ reply = some r ∧
        c' = { c with mail := { c.mail with replies := c.mail.replies.filter (·.1 != ticket) } }) ∨
      (∀ r, c.runner ≠ .live r) ∧ reply = none ∧ c' = c := by
  simp only [act, collect] at hact
  split at hact
  · next hcollect =>
    cases hact
    obtain ⟨⟨ticket', r⟩, hfind, heq⟩ := Option.map_eq_some_iff.mp hcollect
    cases heq
    obtain rfl : ticket' = ticket := by simpa using List.find?_some hfind
    exact .inl ⟨r, List.mem_of_find?_eq_some hfind, rfl, rfl⟩
  · cases hact
  · next hgone =>
    cases hact
    exact .inr ⟨hgone, rfl, rfl⟩

/-! ### The state file -/

theorem of_createFile {answer : Except SystemError Unit} (hact : c.act .createFile = some (answer, c')) :
    (∃ file, c.file.create = .ok file ∧ answer = .ok () ∧ c' = { c with file }) ∨
      ∃ e, c.file.create = .error e ∧ answer = .error e ∧ c' = c := by
  simp only [act] at hact
  split at hact
  · next file hcreate =>
    cases hact
    exact .inl ⟨file, hcreate, rfl, rfl⟩
  · next e hcreate =>
    cases hact
    exact .inr ⟨e, hcreate, rfl, rfl⟩

theorem of_appendFile {bytes : List UInt8} {answer : Except SystemError Unit}
    (hact : c.act (.appendFile bytes) = some (answer, c')) :
    (∃ file, c.file.append bytes = .ok file ∧ answer = .ok () ∧ c' = { c with file }) ∨
      ∃ e, c.file.append bytes = .error e ∧ answer = .error e ∧ c' = c := by
  simp only [act] at hact
  split at hact
  · next file happend =>
    cases hact
    exact .inl ⟨file, happend, rfl, rfl⟩
  · next e happend =>
    cases hact
    exact .inr ⟨e, happend, rfl, rfl⟩

/-! ### Part by part -/

structure Spared (c : Console) (a : Action) (c' : Console) : Prop where
  mode : c'.board.mode = c.board.mode ∨ a = .setMode c'.board.mode
  file : c'.file = c.file ∨ a = .createFile ∨ ∃ bytes, a = .appendFile bytes
  runner : c'.runner = c.runner ∨ a = .joinRunner ∧ c'.runner = .none ∨ a = .spawnRunner

/-- Each part of the console is as it was, or the action is one that is about that part. -/
structure Footprint (c : Console) (a : Action) (x : a.Answer) (c' : Console) : Prop extends Spared c a c' where
  screen : c'.board.screen = c.board.screen ∨ a = .resetBoard ∨ ∃ m, a = .replaceParked m
  tally : c'.tally = c.tally ∨ a = .startTone ∨ a = .stopTone
  begun : c'.runner = c.runner ∨ c'.runner = .none ∨ a.events x = [.begun]
  metronome : c'.metronome = c.metronome ∨ c'.metronome = .none ∧ (∀ m, c.metronome ≠ .live m) ∨
    a = .spawnMetronome ∧ c'.metronome = .live .looking
  jobs : c'.mail.jobs = c.mail.jobs ∨ c'.mail.jobs = [] ∨
    ∃ j, a = .post j ∧ c'.mail.jobs = c.mail.jobs ++ [(c.mail.next, j)]
  refusal : c'.refusal = c.refusal ∨ c'.refusal = c.refusal - 1

/-- **Every action** keeps to its footprint. -/
theorem footprint_of_act {a : Action} {x : a.Answer} (hact : c.act a = some (x, c')) : c.Footprint a x c' := by
  have hsame (a : Action) (x : a.Answer) : c.Footprint a x c :=
    ⟨⟨.inl rfl, .inl rfl, .inl rfl⟩, .inl rfl, .inl rfl, .inl rfl, .inl rfl, .inl rfl, .inl rfl⟩
  cases a with
  | setMode s =>
    cases hact
    exact { hsame (.setMode s) () with mode := .inr rfl }
  | resetBoard =>
    cases hact
    exact { hsame .resetBoard () with screen := .inr (.inl rfl) }
  | replaceParked m =>
    cases hact
    exact { hsame (.replaceParked m) () with screen := .inr (.inr ⟨m, rfl⟩) }
  | startTone =>
    cases hact
    exact { hsame .startTone () with tally := .inr (.inl rfl) }
  | stopTone =>
    cases hact
    exact { hsame .stopTone () with tally := .inr (.inr rfl) }
  | spawnRunner =>
    rcases of_spawnRunner hact with ⟨rfl, -, rfl⟩ | ⟨rfl, -, rfl⟩
    · exact { hsame .spawnRunner false with refusal := .inr rfl }
    · exact { hsame .spawnRunner true with
        runner := .inr (.inr rfl)
        begun := .inr (.inr rfl)
        jobs := .inr (.inl rfl)
        refusal := .inr rfl }
  | spawnMetronome =>
    rcases of_spawnMetronome hact with ⟨-, -, rfl⟩ | ⟨-, -, rfl⟩
    · exact { hsame .spawnMetronome x with refusal := .inr rfl }
    · exact { hsame .spawnMetronome x with metronome := .inr (.inr ⟨rfl, rfl⟩), refusal := .inr rfl }
  | joinRunner =>
    rcases of_joinRunner hact with ⟨-, -, rfl⟩ | ⟨p, -, -, rfl⟩ | ⟨-, -, rfl⟩
    · exact hsame .joinRunner x
    all_goals exact { hsame .joinRunner x with runner := .inr (.inl ⟨rfl, rfl⟩), begun := .inr (.inl rfl) }
  | joinMetronome =>
    obtain ⟨rfl, hgone⟩ := of_joinMetronome hact
    exact { hsame .joinMetronome x with metronome := .inr (.inl ⟨rfl, hgone⟩) }
  | post j =>
    rcases of_post hact with ⟨r, -, -, rfl⟩ | ⟨-, -, rfl⟩
    · exact { hsame (.post j) x with jobs := .inr (.inr ⟨j, rfl, rfl⟩) }
    · exact hsame (.post j) x
  | collect ticket =>
    rcases of_collect hact with ⟨r, -, -, rfl⟩ | ⟨-, -, rfl⟩
    · exact { hsame (.collect ticket) x with }
    · exact hsame (.collect ticket) x
  | createFile =>
    rcases of_createFile hact with ⟨file, -, -, rfl⟩ | ⟨e, -, -, rfl⟩
    · exact { hsame .createFile x with file := .inr (.inl rfl) }
    · exact hsame .createFile x
  | appendFile bytes =>
    rcases of_appendFile hact with ⟨file, -, -, rfl⟩ | ⟨e, -, -, rfl⟩
    · exact { hsame (.appendFile bytes) x with file := .inr (.inr ⟨bytes, rfl⟩) }
    · exact hsame (.appendFile bytes) x
  | _ =>
    cases hact
    exact ⟨⟨.inl rfl, .inl rfl, .inl rfl⟩, .inl rfl, .inl rfl, .inl rfl, .inl rfl, .inl rfl, .inl rfl⟩

end Console

end ChipEight
