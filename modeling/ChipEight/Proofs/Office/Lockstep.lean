import ChipEight.Proofs.Office.Ahead

/-!
# Two desks that do the same

Two consoles differ in their journals and state files, in the tickets of their jobs, and it may be that one desk has
joined an ended run that the other has not.  Whatever is asked of both, both do the same.

* `Console.Abreast` : both desks wait for the reply to the same job.
* `Procedure.AwaitsReplies` : a procedure that sends a job waits for its reply.
* `Office.Lockstep` : both desks are at the same request.
* `Office.Lockstep.advance` : the second keeps up with a turn of the first.
-/

namespace ChipEight

/-! ### Both wait for a reply -/

/-- The one waits for the reply to the ticket `t`, the other to `t'`, and the same has become of both jobs. -/
inductive Console.JobsAlike (t t' : Nat) (c d : Console) : Prop
  | sent {j : Job} {r : Runner} (hlive : c.runner = .live r) (hjobs : c.mail.jobs = [(t, j)])
    (hjobs' : d.mail.jobs = [(t', j)]) (hreplies : c.mail.replies = []) (hreplies' : d.mail.replies = [])
  | replied {reply : Reply} (hjobs : c.mail.jobs = []) (hjobs' : d.mail.jobs = [])
    (hreplies : c.mail.replies = [(t, reply)]) (hreplies' : d.mail.replies = [(t', reply)])
  | lost (hgone : ∀ r, c.runner ≠ .live r) (hquiet : c.mail.Quiet) (hquiet' : d.mail.Quiet)

/-- Two consoles side by side, where both desks wait for the reply to the same job. -/
structure Console.Abreast (t t' : Nat) (c d : Console) : Prop where
  beside : c.Beside d
  jobsAlike : c.JobsAlike t t' d

namespace Console

variable {sc : Scenario} {c d : Console} {t t' : Nat}

/-- Both runners take the job, and the same is remembered of it. -/
theorem Beside.serve (h : c.Beside d) {r : Runner} {j : Job} (hjobs : c.mail.jobs = [(t, j)])
    (hjobs' : d.mail.jobs = [(t', j)]) (hreplies : c.mail.replies = []) (hreplies' : d.mail.replies = []) :
    (c.serve r).Abreast t t' (d.serve r) := by
  have hreply (m : Mailbox) (hnone : m.replies = []) (ticket : Nat) (reply : Reply) :
      (({ m with jobs := [] } : Mailbox).reply ticket reply).replies = [(ticket, reply)] := by
    simp only [Mailbox.reply, hnone, List.nil_append]
  obtain ⟨mail, file, journal, rfl, hakin⟩ := h
  dsimp only at hjobs' hreplies'
  cases j with
  | capture =>
    simp only [Console.serve, hjobs, hjobs']
    exact ⟨⟨_, file, journal, rfl, hakin⟩, .replied rfl rfl (hreply _ hreplies _ _) (hreply _ hreplies' _ _)⟩
  | restore m =>
    simp only [Console.serve, hjobs, hjobs']
    exact ⟨⟨_, file, _, rfl, hakin⟩, .replied rfl rfl (hreply _ hreplies _ _) (hreply _ hreplies' _ _)⟩

/-- A runner that takes no job leaves the jobs as they are, or they are lost when it goes. -/
theorem JobsAlike.runnerMove (h : c.JobsAlike t t' d) (hbeside : c.Beside d) {r : Runner}
    (hsc : sc.Only Happening.Apart) (hlive : c.runner = .live r)
    (hjobs : r.stage = .serving → c.mail.jobs = [] ∧ d.mail.jobs = []) (due : Bool) :
    (c.runnerMove sc due r).JobsAlike t t' (d.runnerMove sc due r) := by
  have hlive' : d.runner = .live r := hbeside.runner_eq.trans hlive
  have hmoved : (c.runnerMove sc due r).Beside (d.runnerMove sc due r) := hbeside.runnerMove hjobs due
  rcases mail_runnerMove hsc hlive (fun hstage => (hjobs hstage).1) due with ⟨hmail, r', hstays⟩ | ⟨hmail, hgone⟩
  · have hmail' : (d.runnerMove sc due r).mail = d.mail := by
      rcases mail_runnerMove hsc hlive' (fun hstage => (hjobs hstage).2) due with ⟨hmail', -⟩ | ⟨-, hgone'⟩
      · exact hmail'
      · exact absurd (hmoved.runner_eq.trans hstays) (hgone' r')
    cases h with
    | sent _ hsent hsent' hreplies hreplies' =>
      exact .sent hstays (hmail ▸ hsent) (hmail' ▸ hsent') (hmail ▸ hreplies) (hmail' ▸ hreplies')
    | replied hnone hnone' hreplies hreplies' =>
      exact .replied (hmail ▸ hnone) (hmail' ▸ hnone') (hmail ▸ hreplies) (hmail' ▸ hreplies')
    | lost hgone => exact absurd hlive (hgone r)
  · have hmail' : (d.runnerMove sc due r).mail = d.mail.close := by
      rcases mail_runnerMove hsc hlive' (fun hstage => (hjobs hstage).2) due with ⟨-, r', hstays⟩ | ⟨hmail', -⟩
      · exact absurd (hmoved.runner_eq.symm.trans hstays) (hgone r')
      · exact hmail'
    have hjobs : (c.runnerMove sc due r).mail.jobs = [] := hmail ▸ rfl
    have hjobs' : (d.runnerMove sc due r).mail.jobs = [] := hmail' ▸ rfl
    replace hmail : (c.runnerMove sc due r).mail.replies = c.mail.replies := hmail ▸ rfl
    replace hmail' : (d.runnerMove sc due r).mail.replies = d.mail.replies := hmail' ▸ rfl
    cases h with
    | sent _ _ _ hreplies hreplies' => exact .lost hgone ⟨hjobs, hmail ▸ hreplies⟩ ⟨hjobs', hmail' ▸ hreplies'⟩
    | replied _ _ hreplies hreplies' => exact .replied hjobs hjobs' (hmail ▸ hreplies) (hmail' ▸ hreplies')
    | lost hgone => exact absurd hlive (hgone r)

theorem JobsAlike.metronomeMove (h : c.JobsAlike t t' d) (sc : Scenario) (due : Bool) (m : Metronome) :
    (c.metronomeMove sc due m).JobsAlike t t' (d.metronomeMove sc due m) := by
  obtain ⟨hrunner, hmail, -⟩ := metronomeMove_eq (c := c) sc due m
  obtain ⟨-, hmail', -⟩ := metronomeMove_eq (c := d) sc due m
  cases h with
  | sent hlive hjobs hjobs' hreplies hreplies' =>
    exact .sent (hrunner.trans hlive) (hmail ▸ hjobs) (hmail' ▸ hjobs') (hmail ▸ hreplies) (hmail' ▸ hreplies')
  | replied hjobs hjobs' hreplies hreplies' =>
    exact .replied (hmail ▸ hjobs) (hmail' ▸ hjobs') (hmail ▸ hreplies) (hmail' ▸ hreplies')
  | lost hgone hquiet hquiet' => exact .lost (hrunner ▸ hgone) (hmail ▸ hquiet) (hmail' ▸ hquiet')

end Console

namespace Scene

variable {sc : Scenario} {s v : Scene} {t t' : Nat}

/-- **A turn of a clock** while both desks wait. -/
theorem abreast_clocked (hsc : sc.Only Happening.Apart) (h : s.console.Abreast t t' v.console) (turn : Turn) :
    (s.clocked sc turn).console.Abreast t t' (v.clocked sc turn).console ∧
      Alike s v (s.clocked sc turn) (v.clocked sc turn) := by
  obtain ⟨hbeside, hjobsAlike⟩ := h
  cases turn with
  | runner due =>
    simp only [clocked, hbeside.runner_eq]
    cases hrunner : s.console.runner with
    | none | ended | died => exact ⟨⟨hbeside, hjobsAlike⟩, .refl s v⟩
    | live r =>
      have hpasses (hjobs : r.stage = .serving → s.console.mail.jobs = [] ∧ v.console.mail.jobs = []) :
          (s.console.runnerMove sc due r).Abreast t t' (v.console.runnerMove sc due r) ∧
            r.events v.console (v.console.runnerMove sc due r) = r.events s.console (s.console.runnerMove sc due r) := by
        have hmoved : (s.console.runnerMove sc due r).Beside (v.console.runnerMove sc due r) :=
          hbeside.runnerMove hjobs due
        exact ⟨⟨hmoved, hjobsAlike.runnerMove hbeside hsc hrunner hjobs due⟩, hmoved.events_eq hjobs⟩
      have hmoves : (s.console.runnerMove sc due r).Abreast t t' (v.console.runnerMove sc due r) ∧
          r.events v.console (v.console.runnerMove sc due r) = r.events s.console (s.console.runnerMove sc due r) := by
        cases hjobsAlike with
        | replied hjobs hjobs' => exact hpasses fun _ => ⟨hjobs, hjobs'⟩
        | lost hgone => exact absurd hrunner (hgone r)
        | @sent j r' hlive hjobs hjobs' hreplies hreplies' =>
          by_cases hstage : r.stage = .serving
          · have hserve (c : Console) : c.runnerMove sc due r = c.serve r := by simp only [Console.runnerMove, hstage]
            rw [hserve, hserve]
            refine ⟨hbeside.serve hjobs hjobs' hreplies hreplies', ?_⟩
            simp only [Runner.events, hstage, hjobs, hjobs']
            cases j with
            | capture => simp only [hbeside.board_eq]
            | restore m => rfl
          · exact hpasses fun hserving => absurd hserving hstage
      refine ⟨hmoves.1, _, rfl, ?_⟩
      dsimp only
      rw [hmoves.2]
  | metronome due fatal =>
    simp only [clocked, hbeside.metronome_eq]
    cases s.console.metronome with
    | live m => exact ⟨⟨hbeside.metronomeMove due m, hjobsAlike.metronomeMove _ due m⟩, m.events, rfl, rfl⟩
    | none | ended | died => exact ⟨⟨hbeside, hjobsAlike⟩, .refl s v⟩
  | desk | call | refuse | file => exact ⟨⟨hbeside, hjobsAlike⟩, .refl s v⟩

end Scene

/-! ### Procedures that wait for their replies -/

namespace Procedure

variable {α β : Type}

/-- Whoever sends a job goes on to wait for its reply, and the ticket is used for nothing else. -/
inductive AwaitsReplies : Procedure α → Prop
  | done {r : α} : AwaitsReplies (.done r)
  | plain {a : Action} {next : a.Answer → Procedure α} (ha : a.Plain) (h : ∀ x, AwaitsReplies (next x)) :
    AwaitsReplies (.act a next)
  | asks {j : Job} {next : Option Nat → Procedure α} {rest : Option Reply → Procedure α}
    (hnone : AwaitsReplies (next none)) (hsome : ∀ t, next (some t) = .act (.collect t) rest)
    (hrest : ∀ r, AwaitsReplies (rest r)) : AwaitsReplies (.act (.post j) next)

namespace AwaitsReplies

theorem bind {p : Procedure α} {f : α → Procedure β} (h : p.AwaitsReplies) (hf : ∀ r, (f r).AwaitsReplies) :
    (p >>= f).AwaitsReplies := by
  induction h with
  | @done r => exact hf r
  | plain ha _ ih => exact .plain ha ih
  | @asks j next rest _ hsome _ ihnone ihrest =>
    have hcollect (t : Nat) : (next (some t)).andThen f = .act (.collect t) fun r => (rest r).andThen f := by
      rw [hsome t]
      rfl
    exact .asks ihnone hcollect ihrest

theorem andThen {o : Order.Op α} {f : α → Order.Op β} (h : o.run.AwaitsReplies) (hf : ∀ r, (f r).run.AwaitsReplies) :
    (o >>= f).run.AwaitsReplies := by
  apply AwaitsReplies.bind (p := o.run) h
  rintro (e | r)
  · exact .done
  · exact hf r

theorem lift {p : Procedure α} {f : α → Order.Op β} (h : p.AwaitsReplies) (hf : ∀ r, (f r).run.AwaitsReplies) :
    ((liftM p : Order.Op α) >>= f).run.AwaitsReplies :=
  andThen (o := (liftM p : Order.Op α)) (h.bind fun _ => .done) hf

end AwaitsReplies

theorem AwaitsReplies.rest {a : Action} {next : a.Answer → Procedure α} (h : AwaitsReplies (.act a next)) (ha : a.Plain)
    (x : a.Answer) : (next x).AwaitsReplies := by
  cases h with
  | plain _ hnext => exact hnext x
  | asks => exact ha.elim

theorem awaitsReplies_of_within {p : Procedure α} {B : Action.Bounds} {Q : α → Prop}
    (h : p.Within (fun _ _ => True) (Action.Bounded B) Q) (hB : ¬ B.asks) : p.AwaitsReplies := by
  induction p with
  | done r => exact .done
  | act a next ih =>
    refine .plain ?_ fun x => ih x (h.2 x trivial)
    cases a with
    | post j =>
      cases j with
      | capture => exact absurd h.1 hB
      | restore m => exact absurd h.1.1 hB
    | collect ticket => exact absurd h.1 hB
    | _ => trivial

end Procedure

namespace Order

open Procedure (single Within AwaitsReplies awaitsReplies_of_within)

theorem awaitsReplies_ask (j : Job) : (ask j).AwaitsReplies := by
  refine .plain trivial ?_
  rintro (_ | _)
  · exact .done
  · exact .asks .done (fun _ => rfl) fun _ => .done

theorem awaitsReplies_alone {α : Type} {o : Op α} (ho : o.run.AwaitsReplies) :
    (do if ← single .isAttached then endRun
        o : Op α).run.AwaitsReplies := by
  refine .plain trivial ?_
  rintro (_ | _)
  · exact ho
  · exact AwaitsReplies.andThen (awaitsReplies_of_within within_endRun id) fun _ => ho

theorem awaitsReplies_capture : capture.run.AwaitsReplies := by
  have hparked : (single .captureParked : Op Machine).run.AwaitsReplies := .plain trivial fun _ => .done
  refine AwaitsReplies.lift (awaitsReplies_ask .capture) ?_
  rintro (_ | ⟨m⟩ | _)
  · exact awaitsReplies_alone hparked
  · exact .done
  · exact awaitsReplies_alone hparked

theorem awaitsReplies_settleTone : (liftM settleTone : Op Unit).run.AwaitsReplies :=
  AwaitsReplies.bind (awaitsReplies_of_within (B := {}) settleTone_within id) fun _ => .done

theorem awaitsReplies_restore (m : Machine) : (restore m).run.AwaitsReplies := by
  have hparked : (do single (.replaceParked m); settleTone : Op Unit).run.AwaitsReplies :=
    .plain trivial fun _ => awaitsReplies_settleTone
  have hask : (restoreHeld m).run.AwaitsReplies := by
    refine AwaitsReplies.lift (awaitsReplies_ask (.restore m)) ?_
    rintro (_ | ⟨m'⟩ | _)
    · exact awaitsReplies_alone hparked
    · exact awaitsReplies_alone hparked
    · exact AwaitsReplies.andThen awaitsReplies_settleTone fun _ => .done
  refine .plain trivial ?_
  rintro (_ | _ | _)
  · exact hask
  · exact .done
  · exact hask

theorem awaitsReplies_writeDown (m : Machine) : (writeDown m).run.AwaitsReplies :=
  awaitsReplies_of_within (B := { writes := True }) (writeDown_within (C := fun _ => True) m trivial fun _ _ => trivial) id

theorem awaitsReplies_load : load.run.AwaitsReplies := by
  have hunpack (bytes : List UInt8) : (unpack bytes).run.AwaitsReplies := by
    unfold unpack
    cases Image.decode bytes with
    | error d => exact .done
    | ok m =>
      exact AwaitsReplies.andThen (awaitsReplies_restore m) fun _ => .plain trivial fun _ => .plain trivial fun _ => .done
  have hread : (do
      let bytes ← orSystemError (single .readFile)
      unpack bytes : Op Unit).run.AwaitsReplies := by
    refine .plain trivial ?_
    rintro (e | bytes)
    · exact .done
    · exact hunpack bytes
  refine .plain trivial ?_
  rintro (_ | _ | _)
  · exact hread
  · exact .done
  · exact hread

/-- **Every request** that sends a job waits for the reply. -/
theorem awaitsReplies_order (q : Request) : q.order.run.AwaitsReplies := by
  have hnone {o : Op Unit} (h : o.run.AwaitsReplies) : (do o; return none : Op (Option Machine)).run.AwaitsReplies :=
    AwaitsReplies.andThen h fun _ => .done
  cases q with
  | capture => exact AwaitsReplies.andThen awaitsReplies_capture fun _ => .done
  | restore m => exact hnone (awaitsReplies_restore m)
  | save => exact hnone (AwaitsReplies.andThen awaitsReplies_capture awaitsReplies_writeDown)
  | load => exact hnone awaitsReplies_load
  | reset | start | stop | pause | resume | setRate =>
    apply awaitsReplies_of_within (request_within (fun _ _ => True) _)
    rintro ((h | h) | ⟨m, h | h⟩) <;> cases h

end Order

/-! ### To send a job and to collect its reply -/

namespace Console

variable {c d : Console} {t t' : Nat}

/-- Both desks send the same job, or neither does. -/
theorem Level.post (h : c.Level d) (j : Job) :
    (∃ t t' c' d', c.act (.post j) = some (some t, c') ∧ d.act (.post j) = some (some t', d') ∧ c'.Abreast t t' d' ∧
      c'.file = c.file ∧ d'.file = d.file) ∨
    c.act (.post j) = some (none, c) ∧ d.act (.post j) = some (none, d) := by
  have hpost (m : Mailbox) (hnone : m.jobs = []) : (m.post j).jobs = [(m.next, j)] := by
    simp only [Mailbox.post, hnone, List.nil_append]
  obtain ⟨⟨mail, file, journal, rfl, hakin⟩, ⟨hjobs, hreplies⟩, hjobs', hreplies'⟩ := h
  cases hrunner : c.runner with
  | live r =>
    refine .inl ⟨c.mail.next, mail.next, { c with mail := c.mail.post j },
      { c with mail := mail.post j, file, journal }, ?_, ?_, ?_, rfl, rfl⟩
    · simp only [Console.act, Console.post, hrunner]
    · simp only [Console.act, Console.post, hrunner]
    · have hjobsAlike : ({ c with mail := c.mail.post j } : Console).JobsAlike c.mail.next mail.next
          { c with mail := mail.post j, file, journal } :=
        .sent hrunner (hpost _ hjobs) (hpost mail hjobs') hreplies hreplies'
      exact ⟨⟨_, file, journal, rfl, hakin⟩, hjobsAlike⟩
  | none | ended | died =>
    refine .inr ⟨?_, ?_⟩
    · simp only [Console.act, Console.post, hrunner]
    · simp only [Console.act, Console.post]

structure Collected (c d : Console) (x y : Option Reply × Console) : Prop where
  answer : y.1 = x.1
  level : x.2.Level y.2
  file : x.2.file = c.file
  file' : y.2.file = d.file

/-- Both desks collect the same reply, or both wait on. -/
theorem Abreast.collect (h : c.Abreast t t' d) :
    Option.Rel (Collected c d) (c.act (.collect t)) (d.act (.collect t')) := by
  obtain ⟨hbeside, hjobsAlike⟩ := h
  simp only [Console.act, Console.collect, hbeside.runner_eq, Mailbox.collect?]
  cases hjobsAlike with
  | sent hlive hjobs hjobs' hreplies hreplies' =>
    simp only [hlive, hreplies, hreplies', List.find?_nil, Option.map_none]
    exact .none
  | replied hjobs hjobs' hreplies hreplies' =>
    simp only [hreplies, hreplies', List.find?_cons_of_pos, beq_self_eq_true, Option.map_some]
    obtain ⟨mail, file, journal, rfl, hakin⟩ := hbeside
    refine .some ⟨rfl, ⟨⟨_, file, journal, rfl, hakin⟩, ⟨hjobs, ?_⟩, ⟨hjobs', ?_⟩⟩, rfl, rfl⟩
    · simp
    · simp
  | lost hgone hquiet hquiet' =>
    simp only [hquiet.2, hquiet'.2, List.find?_nil, Option.map_none]
    have hcollected : Collected c d (none, c) (none, d) := ⟨rfl, ⟨hbeside, hquiet, hquiet'⟩, rfl, rfl⟩
    cases hrunner : c.runner with
    | live r => exact absurd hrunner (hgone r)
    | none | ended | died => exact .some hcollected

end Console

/-! ### Turns -/

/-- The consoles are level, or the first desk has joined an ended run and the second has not. -/
def Console.LevelOrAhead (c d : Console) : Prop := c.Level d ∨ c.Ahead d

/-- **A turn of a clock**, when both desks are at no request. -/
theorem Scene.levelOrAhead_clocked {sc : Scenario} {s v : Scene} (hsc : sc.Only Happening.Apart)
    (h : s.console.LevelOrAhead v.console) (t : Turn) :
    (s.clocked sc t).console.LevelOrAhead (v.clocked sc t).console ∧ Alike s v (s.clocked sc t) (v.clocked sc t) := by
  rcases h with hlevel | hahead
  · exact (level_clocked hsc hlevel t).imp .inl id
  · exact (parting_clocked hahead t).imp .inr id

namespace Office

/-- Both offices are at the same request, or at none. -/
inductive Lockstep : Office → Office → Prop
  | idle {s v : Scene} (h : s.console.LevelOrAhead v.console) : Lockstep { toScene := s } { toScene := v }
  | level {s v : Scene} {q : Request} {p : Procedure Request.Answer} (h : s.console.Level v.console)
    (hawaits : p.AwaitsReplies) :
    Lockstep (busy s q p) (busy v q p)
  | ahead {s v : Scene} {q : Request} {p : Procedure Request.Answer} (h : s.console.Ahead v.console)
    (hsheds : p.Sheds fun _ => True) (hawaits : p.AwaitsReplies) : Lockstep (busy s q p) (busy v q p)
  | waiting {s v : Scene} {q : Request} {t t' : Nat} {rest : Option Reply → Procedure Request.Answer}
    (h : s.console.Abreast t t' v.console) (hawaits : ∀ r, (rest r).AwaitsReplies) :
    Lockstep (busy s q (.act (.collect t) rest)) (busy v q (.act (.collect t') rest))

def next? (o : Office) : Option Action :=
  match o.task with
  | some (_, .act a _) => some a
  | _ => none

/-- The state file is read in this turn. -/
def Reads (o : Office) : Turn → Prop
  | .desk => o.next? = some .readFile
  | _ => False

/-- The state file is written anew in this turn. -/
def Rewrites (o : Office) : Turn → Prop
  | .desk => o.next? = some .createFile
  | .file _ => o.task.isNone
  | _ => False

instance (o : Office) : (t : Turn) → Decidable (o.Reads t)
  | .desk => inferInstanceAs (Decidable (_ = _))
  | .runner _ | .metronome .. | .call _ | .refuse _ | .file _ => instDecidableFalse

instance (o : Office) : (t : Turn) → Decidable (o.Rewrites t)
  | .desk => inferInstanceAs (Decidable (_ = _))
  | .file _ => inferInstanceAs (Decidable (_ = true))
  | .runner _ | .metronome .. | .call _ | .refuse _ => instDecidableFalse

theorem not_rewrites_clock (o : Office) {t : Turn} (ht : t.isClock = true) : ¬ o.Rewrites t := by
  cases t with
  | runner | metronome => exact id
  | desk | call | refuse | file => cases ht

theorem not_rewrites_busy {s : Scene} {q : Request} {p : Procedure Request.Answer} {t : Turn} (ht : t ≠ .desk) :
    ¬ (busy s q p).Rewrites t := by
  cases t with
  | desk => exact absurd rfl ht
  | file f => exact nofun
  | runner | metronome | call | refuse => exact id

/-- These turns are the turn `t`, or any number of actions of the desk for one. -/
def Covers (t : Turn) (piece : List Turn) : Prop := piece = [t] ∨ t = .desk ∧ ∃ n, piece = .replicate n .desk

/-- After the turn `t` of the first office and these of the second, the second is where the first one is, the same has
happened in both, and unless somebody has written to the state file of one of them alone, it is the same. -/
structure KeepsUp (sc : Scenario) (w v : Office) (t : Turn) (piece : List Turn) : Prop where
  covers : Covers t piece
  lockstep : Lockstep (w.advance sc t) (v.run sc piece)
  alike : Scene.Alike w.toScene v.toScene (w.advance sc t).toScene (v.run sc piece).toScene
  file : v.console.file = w.console.file ∨ w.Rewrites t →
    (v.run sc piece).console.file = (w.advance sc t).console.file

section

variable {sc : Scenario} {s v : Scene} {q : Request} {p p' : Procedure Request.Answer} {t : Turn}

/-- A turn of a clock, when both desks are busy. -/
theorem KeepsUp.of_clocked (hsc : sc.Only Happening.Apart) (ht : t ≠ .desk)
    (h : Lockstep (busy (s.clocked sc t) q p) (busy (v.clocked sc t) q p'))
    (halike : Scene.Alike s v (s.clocked sc t) (v.clocked sc t)) : KeepsUp sc (busy s q p) (busy v q p') t [t] where
  covers := .inl rfl
  lockstep := by
    rw [run_cons, advance_of_ne_desk sc s q p ht, advance_of_ne_desk sc v q p' ht]
    exact h
  alike := by
    rw [run_cons, advance_of_ne_desk sc s q p ht, advance_of_ne_desk sc v q p' ht]
    exact halike
  file hfile := by
    have hsame : v.console.file = s.console.file := hfile.resolve_right (not_rewrites_busy ht)
    rw [run_cons, advance_of_ne_desk sc s q p ht, advance_of_ne_desk sc v q p' ht]
    show (v.clocked sc t).console.file = (s.clocked sc t).console.file
    rw [Scene.file_clocked hsc, Scene.file_clocked hsc, hsame]

/-- The first desk does an action, and the second does one or more for it. -/
theorem KeepsUp.of_act {a : Action} {x : a.Answer} {next : a.Answer → Procedure Request.Answer} {c d : Console}
    {n : Nat} (hact : s.console.act a = some (x, c))
    (hrun : (busy v q p).run sc (.replicate n .desk) = busy ⟨d, v.past ++ a.events x⟩ q p')
    (h : Lockstep (busy (s.did a x c) q (next x)) (busy ⟨d, v.past ++ a.events x⟩ q p'))
    (hfile : v.console.file = s.console.file ∨ a = .createFile → d.file = c.file) :
    KeepsUp sc (busy s q (.act a next)) (busy v q p) .desk (.replicate n .desk) where
  covers := .inr ⟨rfl, n, rfl⟩
  lockstep := by
    rw [hrun, advance_act sc hact]
    exact h
  alike := by
    rw [hrun, advance_act sc hact]
    exact ⟨a.events x, rfl, rfl⟩
  file hsame := by
    rw [hrun, advance_act sc hact]
    exact hfile (hsame.imp id Option.some.inj)

theorem KeepsUp.of_acts {a a' : Action} {x : a.Answer} {x' : a'.Answer} {next : a.Answer → Procedure Request.Answer}
    {next' : a'.Answer → Procedure Request.Answer} {c d : Console} (hact : s.console.act a = some (x, c))
    (hact' : v.console.act a' = some (x', d)) (hevents : a'.events x' = a.events x)
    (h : Lockstep (busy ⟨c, s.past ++ a.events x⟩ q (next x)) (busy ⟨d, v.past ++ a.events x⟩ q (next' x')))
    (hfile : v.console.file = s.console.file ∨ a = .createFile → d.file = c.file) :
    KeepsUp sc (busy s q (.act a next)) (busy v q (.act a' next')) .desk [.desk] := by
  refine KeepsUp.of_act (n := 1) hact ?_ h hfile
  rw [List.replicate_one, run_cons, advance_act sc hact', Scene.did, hevents]
  rfl

theorem KeepsUp.of_none {a a' : Action} {next : a.Answer → Procedure Request.Answer}
    {next' : a'.Answer → Procedure Request.Answer} (hact : s.console.act a = none) (hact' : v.console.act a' = none)
    (h : Lockstep (busy s q (.act a next)) (busy v q (.act a' next'))) (ha : a ≠ .createFile) :
    KeepsUp sc (busy s q (.act a next)) (busy v q (.act a' next')) .desk [.desk] := by
  have hstays {s : Scene} {a : Action} {next : a.Answer → Procedure Request.Answer} (hact : s.console.act a = none) :
      (busy s q (.act a next)).advance sc .desk = busy s q (.act a next) := by
    refine advance_of_not_ripe sc ?_ q
    rintro ⟨x, c, hsome⟩
    rw [hact] at hsome
    cases hsome
  refine ⟨.inl rfl, ?_, ?_, ?_⟩
  · rw [run_cons, hstays hact, hstays hact']
    exact h
  · rw [run_cons, hstays hact, hstays hact']
    exact .refl s v
  · rw [run_cons, hstays hact, hstays hact']
    exact fun hfile => hfile.resolve_right fun hcreate => ha (Option.some.inj hcreate)

theorem KeepsUp.of_done {answer : Request.Answer} (h : s.console.LevelOrAhead v.console) :
    KeepsUp sc (busy s q (.done answer)) (busy v q (.done answer)) .desk [.desk] where
  covers := .inl rfl
  lockstep := .idle (s := s.add (.answered q answer)) (v := v.add (.answered q answer)) h
  alike := ⟨[.answered q answer], rfl, rfl⟩
  file hfile := hfile.resolve_right nofun

theorem keepsUp_level (hsc : sc.Only Happening.Apart) (h : s.console.Level v.console) (hawaits : p.AwaitsReplies)
    (hreads : (busy s q p).Reads t → v.console.file = s.console.file) :
    ∃ piece, KeepsUp sc (busy s q p) (busy v q p) t piece := by
  by_cases ht : t = .desk
  · subst ht
    cases hawaits with
    | done => exact ⟨_, .of_done (.inl h)⟩
    | @plain a next ha hnext =>
      have hacted := h.act ha fun hread => hreads (congrArg some hread)
      cases hact : s.console.act a with
      | none =>
        cases hact' : v.console.act a with
        | none =>
          refine ⟨_, .of_none hact hact' (.level h (.plain ha hnext)) ?_⟩
          rintro rfl
          simp only [Console.act] at hact
          split at hact <;> cases hact
        | some y => rw [hact, hact'] at hacted; cases hacted
      | some x =>
        cases hact' : v.console.act a with
        | none => rw [hact, hact'] at hacted; cases hacted
        | some y =>
          rw [hact, hact'] at hacted
          obtain ⟨x, c⟩ := x
          obtain ⟨x', d⟩ := y
          obtain ⟨⟨hanswer, hlevel, hfile, hcreated⟩⟩ := hacted
          obtain rfl : x' = x := hanswer
          refine ⟨_, .of_acts hact hact' rfl (.level hlevel (hnext _)) ?_⟩
          exact fun hsame => hsame.elim hfile hcreated
    | @asks j next rest hnone hsome hrest =>
      rcases h.post j with ⟨t, t', c, d, hact, hact', habreast, hfile, hfile'⟩ | ⟨hact, hact'⟩
      · have hsame (hv : v.console.file = s.console.file) : d.file = c.file := by rw [hfile, hfile', hv]
        refine ⟨_, .of_acts hact hact' rfl ?_ fun hv => hv.elim hsame (by rintro ⟨⟩)⟩
        rw [hsome, hsome]
        exact .waiting habreast hrest
      · exact ⟨_, .of_acts hact hact' rfl (.level h hnone) fun hv => hv.elim id (by rintro ⟨⟩)⟩
  · obtain ⟨hlevel, halike⟩ := Scene.level_clocked hsc h t
    exact ⟨_, .of_clocked hsc ht (.level hlevel hawaits) halike⟩

theorem keepsUp_waiting (hsc : sc.Only Happening.Apart) {ticket ticket' : Nat}
    {rest : Option Reply → Procedure Request.Answer} (h : s.console.Abreast ticket ticket' v.console)
    (hawaits : ∀ r, (rest r).AwaitsReplies) (t : Turn) :
    ∃ piece, KeepsUp sc (busy s q (.act (.collect ticket) rest)) (busy v q (.act (.collect ticket') rest)) t piece := by
  by_cases ht : t = .desk
  · subst ht
    have hcollected := h.collect
    cases hact : s.console.act (.collect ticket) with
    | none =>
      cases hact' : v.console.act (.collect ticket') with
      | none => exact ⟨_, .of_none hact hact' (.waiting h hawaits) nofun⟩
      | some y => rw [hact, hact'] at hcollected; cases hcollected
    | some x =>
      cases hact' : v.console.act (.collect ticket') with
      | none => rw [hact, hact'] at hcollected; cases hcollected
      | some y =>
        rw [hact, hact'] at hcollected
        obtain ⟨r, c⟩ := x
        obtain ⟨r', d⟩ := y
        obtain ⟨⟨hanswer, hlevel, hfile, hfile'⟩⟩ := hcollected
        obtain rfl : r' = r := hanswer
        have hsame (hv : v.console.file = s.console.file) : d.file = c.file := by
          rw [show d.file = _ from hfile', show c.file = _ from hfile, hv]
        exact ⟨_, .of_acts hact hact' rfl (.level hlevel (hawaits _)) fun hv => hv.elim hsame nofun⟩
  · obtain ⟨habreast, halike⟩ := Scene.abreast_clocked hsc h t
    exact ⟨_, .of_clocked hsc ht (.waiting habreast hawaits) halike⟩

/-- The second desk finds a run where the first finds none, and comes to where that one is. -/
theorem KeepsUp.of_quietly (h : s.console.Ahead v.console) {next : Bool → Procedure Request.Answer} {d : Console}
    (hrest : (next true).Quietly v.console (next false) d) (hfile : d.file = v.console.file)
    (hlock : Lockstep (busy s q (next false)) (busy ⟨d, v.past⟩ q (next false))) :
    ∃ piece, KeepsUp sc (busy s q (.act .isAttached next)) (busy v q (.act .isAttached next)) .desk piece := by
  have hact : s.console.act .isAttached = some (false, s.console) := by
    simp only [Console.act, h.attached_eq]
  have hact' : v.console.act .isAttached = some (true, v.console) := by
    simp only [Console.act, h.attached_eq']
  have hnone (past : List Event) : past ++ Action.events .isAttached false = past := List.append_nil past
  obtain ⟨n, hrun⟩ := run_quietly sc (.step hact' rfl hrest) q v.past
  have hrun : (busy v q (.act .isAttached next)).run sc (.replicate n .desk) =
      busy ⟨d, v.past ++ Action.events .isAttached false⟩ q (next false) := by
    rw [hnone]
    exact hrun
  refine ⟨_, .of_act hact hrun ?_ fun hv => hv.elim hfile.trans (by rintro ⟨⟩)⟩
  rw [Scene.did, hnone, hnone]
  exact hlock

/-- The first desk has joined the run that has ended, and the second has not. -/
theorem keepsUp_ahead (hsc : sc.Only Happening.Apart) (h : s.console.Ahead v.console) (hsheds : p.Sheds fun _ => True)
    (hawaits : p.AwaitsReplies) (hreads : (busy s q p).Reads t → v.console.file = s.console.file) :
    ∃ piece, KeepsUp sc (busy s q p) (busy v q p) t piece := by
  by_cases ht : t = .desk
  · subst ht
    cases hsheds with
    | done => exact ⟨_, .of_done (.inr h)⟩
    | @calm a next ha hrest =>
      obtain ⟨x, c, d, hact, hact', hstopped, hahead, hfile, hfile'⟩ :=
        h.calm ha fun hread => hreads (congrArg some hread)
      have hsame (hv : v.console.file = s.console.file) : d.file = c.file := by rw [hfile, hfile', hv]
      refine ⟨_, .of_acts hact hact' rfl ?_ fun hv => hv.elim hsame ?_⟩
      · exact .ahead hahead (hrest x hstopped) (hawaits.rest ha.plain x)
      · rintro rfl
        exact ha.elim
    | @asks next hasks hrest =>
      apply KeepsUp.of_quietly h (hasks s.console v.console h) rfl
      exact .ahead h hrest (hawaits.rest trivial false)
    | @joins next hjoins =>
      obtain ⟨d, hrest, hlevel, hfile⟩ := hjoins s.console v.console h
      apply KeepsUp.of_quietly h hrest hfile
      exact .level hlevel (hawaits.rest trivial false)
  · obtain ⟨hahead, halike⟩ := Scene.parting_clocked h t
    exact ⟨_, .of_clocked hsc ht (.ahead hahead hsheds hawaits) halike⟩

theorem keepsUp_idle (hsc : sc.Only Happening.Apart) (h : s.console.LevelOrAhead v.console) (t : Turn) :
    KeepsUp sc { toScene := s } { toScene := v } t [t] := by
  have hclock (ht : t.isClock = true) : KeepsUp sc { toScene := s } { toScene := v } t [t] := by
    obtain ⟨heither, halike⟩ := Scene.levelOrAhead_clocked hsc h t
    refine ⟨.inl rfl, ?_, ?_, ?_⟩
    · rw [run_cons, advance_clock sc ht, advance_clock sc ht]
      exact .idle heither
    · rw [run_cons, advance_clock sc ht, advance_clock sc ht]
      exact halike
    · rw [run_cons, advance_clock sc ht, advance_clock sc ht]
      intro hfile
      have hsame : v.console.file = s.console.file := hfile.resolve_right (not_rewrites_clock _ ht)
      exact ((Scene.file_clocked hsc v t).trans hsame).trans (Scene.file_clocked hsc s t).symm
  cases t with
  | runner due => exact hclock rfl
  | metronome due fatal => exact hclock rfl
  | desk => exact ⟨.inl rfl, .idle h, .refl s v, fun hfile => hfile.resolve_right nofun⟩
  | call q =>
    refine ⟨.inl rfl, ?_, ⟨[.called q], rfl, rfl⟩, fun hfile => hfile.resolve_right id⟩
    rcases h with hlevel | hahead
    · exact .level (s := s.add (.called q)) (v := v.add (.called q)) hlevel (Order.awaitsReplies_order q)
    · exact .ahead (s := s.add (.called q)) (v := v.add (.called q)) hahead (Order.sheds_order q)
        (Order.awaitsReplies_order q)
  | refuse n =>
    refine ⟨.inl rfl, ?_, .refl s v, fun hfile => hfile.resolve_right id⟩
    exact .idle (s := ⟨{ s.console with refusal := n }, s.past⟩) (v := ⟨{ v.console with refusal := n }, v.past⟩)
      (h.imp (·.refuses n) (·.refuses n))
  | file f =>
    refine ⟨.inl rfl, ?_, .refl s v, fun _ => rfl⟩
    exact .idle (s := ⟨{ s.console with file := f }, s.past⟩) (v := ⟨{ v.console with file := f }, v.past⟩)
      (h.imp (·.filed f) (·.filed f))

/-- **The second office keeps up with every turn of the first**, if it finds the same state file when it reads it. -/
theorem Lockstep.advance {w v : Office} (hsc : sc.Only Happening.Apart) (h : Lockstep w v)
    (hreads : w.Reads t → v.console.file = w.console.file) : ∃ piece, KeepsUp sc w v t piece := by
  cases h with
  | idle h => exact ⟨[t], keepsUp_idle hsc h t⟩
  | level h hawaits => exact keepsUp_level hsc h hawaits hreads
  | ahead h hsheds hawaits => exact keepsUp_ahead hsc h hsheds hawaits hreads
  | waiting h hawaits => exact keepsUp_waiting hsc h hawaits t

end

end Office

end ChipEight
