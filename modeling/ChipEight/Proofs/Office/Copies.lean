import ChipEight.Proofs.Office.Orders

/-!
# Asking the runner

While a run has the processor, whoever wants it copied or replaced (`snapshot`, `restore`) asks the runner, which may be
gone before it takes the job or after.

* `Order.InFlight` : the job waits, or it was done and the reply waits, or nobody is there to do it.
* `Order.ask_secures` : a reply tells that the job was done, once; no reply, that it was not and never will be.
* `Order.capture_secures`, `restore_secures`, `save_secures`, `load_secures` : what the orders copy and replace, and
  what becomes of the state file.
-/

namespace ChipEight

namespace StateFile

variable {bytes : List UInt8} {f f' : StateFile}

def Blank (f : StateFile) : Prop := f = .regular [] ∨ f = .sink ∨ f = .full

/-- These bytes were written: the file holds nothing else, or it is a device that forgets them. -/
def Took (bytes : List UInt8) (f : StateFile) : Prop := f = .regular bytes ∨ f = .sink

theorem blank_of_create (h : f.create = .ok f') : f'.Blank := by
  cases f with
  | absent | regular =>
    cases h
    exact .inl rfl
  | refused | locked => cases h
  | sink =>
    cases h
    exact .inr (.inl rfl)
  | full =>
    cases h
    exact .inr (.inr rfl)

theorem took_of_append (hf : f.Blank) (hbytes : bytes ≠ []) (h : f.append bytes = .ok f') : f'.Took bytes := by
  obtain rfl | rfl | rfl := hf
  · cases h
    exact .inl rfl
  · cases h
    exact .inr rfl
  · simp only [append, List.isEmpty_iff, if_neg hbytes] at h
    cases h

end StateFile

namespace Order

open Procedure (single Secures Leads)
open Scene (Fits Stands Firm Holds)

variable {sc : Scenario} {q : Request} {s : Scene} {ds : List Event} {a : Bool} {b : Books}

/-- What the runner does with a job, its reply and what is remembered of it. -/
inductive Fulfils : Job → Reply → Event → Prop
  | copy (m : Machine) : Fulfils .capture (.captured m) (.copied .runner m)
  | replace (m : Machine) : Fulfils (.restore m) .restored (.replaced .runner m)

/-- A job is on its way, and nothing else. -/
inductive InFlight (ds : List Event) (ticket : Nat) (j : Job) (s : Scene) : Prop
  | waiting {r : Runner} (hlive : s.console.runner = .live r) (hjobs : s.console.mail.jobs = [(ticket, j)])
    (hreplies : s.console.mail.replies = []) (hdeals : deals s.past = ds)
  | done {reply : Reply} {deal : Event} (hfulfils : Fulfils j reply deal) (hjobs : s.console.mail.jobs = [])
    (hreplies : s.console.mail.replies = [(ticket, reply)]) (hdeals : deals s.past = ds ++ [deal])
  | lost (hgone : ∀ r, s.console.runner ≠ .live r) (hjobs : s.console.mail.jobs = [])
    (hreplies : s.console.mail.replies = []) (hdeals : deals s.past = ds)

theorem InFlight.moves {ticket : Nat} {j : Job} {c : Console} {es : List Event} (h : InFlight ds ticket j s)
    (hmoves : s.console.Moves sc c es) : InFlight ds ticket j ⟨c, s.past ++ es⟩ := by
  cases h with
  | done hfulfils hjobs hreplies hdeals =>
    obtain ⟨hjobs', hreplies'⟩ := hmoves.mail_eq hjobs
    exact .done hfulfils hjobs' (hreplies'.trans hreplies)
      ((deals_append_of_none (hmoves.deals_eq hjobs)).trans hdeals)
  | lost hgone hjobs hreplies hdeals =>
    obtain ⟨hjobs', hreplies'⟩ := hmoves.mail_eq hjobs
    refine .lost (fun r hlive => ?_) hjobs' (hreplies'.trans hreplies)
      ((deals_append_of_none (hmoves.deals_eq hjobs)).trans hdeals)
    obtain ⟨r, hlive⟩ := hmoves.live_of_live hlive
    exact hgone r hlive
  | waiting hlive hjobs hreplies hdeals =>
    cases hmoves with
    | @copy r' ticket' jobs hlive' hstage hhead =>
      rw [hjobs] at hhead
      cases hhead
      refine .done (.copy (s.console.board.machine r'.processor)) rfl ?_ ?_
      · simp [Mailbox.reply, hreplies]
      · rw [deals_append, hdeals]
        rfl
    | @install r' ticket' m jobs hlive' hstage hhead journal =>
      rw [hjobs] at hhead
      cases hhead
      refine .done (.replace m) rfl ?_ ?_
      · simp [Mailbox.reply, hreplies]
      · rw [deals_append, hdeals]
        rfl
    | pass | step | fail => exact .waiting rfl hjobs hreplies ((deals_append_of_none rfl).trans hdeals)
    | tick | hush => exact .waiting hlive hjobs hreplies ((deals_append_of_none rfl).trans hdeals)
    | die | leave => exact .lost (by rintro _ ⟨⟩) rfl hreplies ((deals_append_of_none rfl).trans hdeals)

theorem InFlight.expects {ticket : Nat} {j : Job} (h : InFlight ds ticket j s) : s.console.Expects ticket := by
  cases h with
  | waiting hlive hjobs => exact .inl ⟨j, hjobs⟩
  | done hfulfils hjobs hreplies => exact .inr (.inl ⟨_, hreplies⟩)
  | lost hgone => exact .inr (.inr hgone)

def Awaits (ds : List Event) (a : Bool) (ticket : Nat) (j : Job) (s : Scene) : Prop :=
  s.Holds a a a (.atRest a) ∧ InFlight ds ticket j s

theorem Awaits.drifts {ticket : Nat} {j : Job} {s' : Scene} (h : Awaits ds a ticket j s) (hdrift : s.Drifts sc s') :
    Awaits ds a ticket j s' :=
  hdrift.induct (fun h hmoves => ⟨h.1.moves hmoves, h.2.moves hmoves⟩) h

theorem Awaits.of_post {j : Job} {ticket : Nat} {c : Console} (h : s.Stands ds a a a (.atRest a))
    (hact : s.console.act (.post j) = some (some ticket, c)) : Awaits ds a ticket j ⟨c, s.past⟩ := by
  rcases Console.of_post hact with ⟨r, hrunner, hsent, rfl⟩ | ⟨-, hnone, -⟩
  · cases hsent
    refine ⟨{ h.toHolds with books := h.books.of_eq rfl rfl rfl rfl }, .waiting hrunner ?_ h.replies h.deals⟩
    simp [Mailbox.post, h.jobs]
  · cases hnone

theorem eq_of_post_none {j : Job} {c : Console} (hact : s.console.act (.post j) = some (none, c)) : c = s.console := by
  rcases Console.of_post hact with ⟨r, -, hsent, -⟩ | ⟨-, -, hsame⟩
  · cases hsent
  · exact hsame

/-- With a reply the job was done, without one it was not, and nothing is left of it. -/
def Replied (ds : List Event) (a : Bool) (j : Job) (reply : Option Reply) (s : Scene) : Prop :=
  match reply with
  | some reply => ∃ deal, Fulfils j reply deal ∧ s.Stands (ds ++ [deal]) a a a (.atRest a)
  | none => s.Stands ds a a a (.atRest a)

theorem Awaits.collects {ticket : Nat} {j : Job} {reply : Option Reply} {c : Console} (h : Awaits ds a ticket j s)
    (hact : s.console.act (.collect ticket) = some (reply, c)) : Replied ds a j reply ⟨c, s.past⟩ := by
  obtain ⟨hholds, hflight⟩ := h
  simp only [Console.act, Console.collect] at hact
  cases hflight with
  | waiting hlive hjobs hreplies hdeals =>
    simp only [Mailbox.collect?, hreplies, hlive] at hact
    cases hact
  | @done reply' deal hfulfils hjobs hreplies hdeals =>
    simp only [Mailbox.collect?, hreplies, List.find?_cons, beq_self_eq_true, Option.map_some] at hact
    cases hact
    refine ⟨deal, hfulfils, {
      hholds with
      books := hholds.books.of_eq rfl rfl rfl rfl
      jobs := hjobs
      replies := ?_
      deals := hdeals }⟩
    simp
  | lost hgone hjobs hreplies hdeals =>
    simp only [Mailbox.collect?, hreplies, List.find?_nil, Option.map_none] at hact
    cases hact
    exact { hholds with jobs := hjobs, replies := hreplies, deals := hdeals }

/-- **To ask the runner**: with a reply the job was done, once; without one it was not, and never will be. -/
theorem ask_secures {j : Job} (hq : q.Allows (.post j)) (h : s.Stands ds a a a (.atRest a)) :
    (ask j).Secures sc (Fits sc q) (Replied ds a j) s := by
  have hcollect : q.Copies ∨ ∃ m, q.Replaces m := by
    cases j with
    | capture => exact .inl hq
    | restore m => exact .inr ⟨m, hq⟩
  refine Leads.asksAttached h fun s₁ h₁ => ?_
  cases a with
  | false => exact Secures.done h₁
  | true =>
    refine Leads.step
      (K := fun ticket s => match ticket with
        | some ticket => Awaits ds true ticket j s
        | none => s.Stands ds true true true .onBoard)
      (fun s' hdrift => ⟨⟨hq, trivial⟩, fun ticket c hact => ?_⟩) ?_
    · have h := h₁.drifts hdrift
      rw [Scene.did_of_quiet rfl]
      cases ticket with
      | some ticket => exact .of_post h hact
      | none =>
        rw [eq_of_post_none hact]
        exact h
    rintro (_ | ticket) s₂ h₂
    · exact Secures.done h₂
    · refine Leads.step (K := fun reply s => Replied ds true j reply s)
        (fun s' hdrift => ⟨⟨hcollect, (h₂.drifts hdrift).2.expects⟩, fun reply c hact => ?_⟩)
        fun reply s₃ h₃ => Secures.done h₃
      rw [Scene.did_of_quiet rfl]
      exact (h₂.drifts hdrift).collects hact

/-! ### Copies and replacements -/

/-- An error that is no fault, and that does not tell of a death when there was none. -/
def Honest (e : DeskError) (s : Scene) : Prop := (∀ f, e ≠ .fault f) ∧ (e = .disconnected → Perished s.past)

theorem honest_of_ne {e : DeskError} (hfault : ∀ f, e ≠ .fault f) (hdisconnected : e ≠ .disconnected) : Honest e s :=
  ⟨hfault, fun h => absurd h hdisconnected⟩

theorem honest_disconnected (h : Perished s.past) : Honest .disconnected s := ⟨nofun, fun _ => h⟩

theorem leads_alone {β : Type} {o : Op β} {G : Procedure (Except DeskError β) → Scene → Prop}
    (h : s.Stands ds a a a (.atRest a))
    (hgo : ∀ s, s.Stands ds false false false .atDesk → o.run.Leads sc (Fits sc q) G s)
    (hlost : ∀ s, s.Rests ds → Perished s.past → G (.done (.error .disconnected)) s) :
    (do if ← single .isAttached then endRun
        o : Op β).run.Leads sc (Fits sc q) G s := by
  refine Leads.asksAttached h fun s₁ h₁ => ?_
  cases a with
  | false => exact hgo s₁ h₁
  | true =>
    refine Secures.andThen (endRun_secures h₁) (fun _ s₂ h₂ => hgo s₂ h₂.1) fun e s₂ h₂ => ?_
    obtain ⟨rfl, hperished⟩ := h₂.2 e rfl
    exact .here (hlost s₂ ⟨false, h₂.1⟩ hperished)

theorem capture_secures (hq : q.Copies) (h : s.Rests ds) :
    capture.run.Secures sc (Fits sc q)
      (fun
        | .ok m, s => ∃ who, s.Rests (ds ++ [.copied who m])
        | .error e, s => e = .disconnected ∧ Perished s.past ∧ s.Rests ds) s := by
  obtain ⟨a, h⟩ := h
  refine Secures.lift (ask_secures (j := .capture) hq h) fun reply s₁ h₁ => ?_
  rcases reply with _ | ⟨m⟩ | _
  · refine leads_alone h₁ (fun s₂ h₂ => ?_) fun s₂ h₂ hperished => ⟨_, rfl, rfl, hperished, h₂⟩
    refine Leads.alone (K := fun m s => s.Stands (ds ++ [.copied .desk m]) false false false .atDesk) h₂
      ⟨hq, h₂.eq_none⟩ (fun m c hact => ?_) fun m s₃ h₃ => Secures.done ⟨.desk, false, h₃⟩
    cases hact
    exact h₂.deal rfl
  · obtain ⟨deal, hfulfils, h₁⟩ := h₁
    cases hfulfils
    exact Secures.done ⟨.runner, a, h₁⟩
  · obtain ⟨deal, hfulfils, -⟩ := h₁
    cases hfulfils

theorem restore_secures {m : Machine} (hq : q.Replaces m) (h : s.Rests ds) :
    (restore m).run.Secures sc (Fits sc q)
      (fun
        | .ok _, s => ∃ who, s.Rests (ds ++ [.replaced who m])
        | .error e, s => Honest e s ∧ s.Rests ds) s := by
  refine Leads.inert Scene.firm_rests trivial h fun mode s h => ?_
  obtain ⟨a, h⟩ := h
  cases mode with
  | running => exact Secures.done ⟨honest_of_ne nofun nofun, a, h⟩
  | stopped | paused =>
    refine Secures.lift (ask_secures (j := .restore m) hq h) fun reply s₁ h₁ => ?_
    rcases reply with _ | ⟨m'⟩ | _
    · refine leads_alone h₁ (fun s₂ h₂ => ?_) fun s₂ h₂ hperished => ⟨_, rfl, honest_disconnected hperished, h₂⟩
      refine Leads.alone (K := fun _ s => s.Stands (ds ++ [.replaced .desk m]) false false false .atDesk) h₂
        ⟨hq, h₂.eq_none⟩ (fun _ c hact => ?_) fun _ s₃ h₃ => ?_
      · cases hact
        exact (h₂.deal rfl).unmoved ⟨rfl, rfl, rfl, rfl, rfl, rfl⟩
      · exact Secures.lifted (settleTone_secures Scene.firm_stands h₃) fun _ s₄ h₄ => ⟨_, rfl, .desk, false, h₄⟩
    · obtain ⟨deal, hfulfils, -⟩ := h₁
      cases hfulfils
    · obtain ⟨deal, hfulfils, h₁⟩ := h₁
      cases hfulfils
      exact Secures.lift (settleTone_secures Scene.firm_stands h₁) fun _ s₂ h₂ => Secures.done ⟨.runner, a, h₂⟩

/-! ### The state file -/

theorem leads_system {α β : Type} {p : Procedure (Except SystemError α)} {f : α → Op β}
    {G : Procedure (Except DeskError β) → Scene → Prop} {K : Except SystemError α → Scene → Prop}
    (h : p.Secures sc (Fits sc q) K s) (hok : ∀ x s, K (.ok x) s → (f x).run.Leads sc (Fits sc q) G s)
    (herror : ∀ e s, K (.error e) s → G (.done (.error (.system e))) s) :
    (orSystemError p >>= f).run.Leads sc (Fits sc q) G s := by
  have hanswer : (orSystemError p).run.Secures sc (Fits sc q)
      (fun
        | .ok x, s => K (.ok x) s
        | .error e, s => ∃ e', e = .system e' ∧ K (.error e') s) s := by
    refine Secures.lift h fun answer s h => ?_
    cases answer with
    | ok x => exact Secures.done h
    | error e => exact Secures.done ⟨e, rfl, h⟩
  refine hanswer.andThen hok ?_
  rintro _ s ⟨e, rfl, h⟩
  exact .here (herror e s h)

theorem single_secures {K : Scene → Prop} {a : Action} {L : a.Answer → Scene → Prop}
    (hmoves : ∀ {s c es}, K s → s.console.Moves sc c es → K ⟨c, s.past ++ es⟩) (h : K s)
    (hact : ∀ s, K s → s.Fits sc q a ∧ ∃ x c, s.console.act a = some (x, c) ∧ a.events x = [] ∧ L x ⟨c, s.past⟩) :
    (single a).Secures sc (Fits sc q) L s :=
  Leads.quiet (fun s' hdrift => hact s' (hdrift.induct hmoves h)) fun _ _ h => Secures.done h

def RestsOn (ds : List Event) (P : StateFile → Prop) (s : Scene) : Prop := s.Rests ds ∧ P s.console.file

theorem RestsOn.moves {P : StateFile → Prop} {c : Console} {es : List Event} (h : RestsOn ds P s)
    (hmoves : s.console.Moves sc c es) : RestsOn ds P ⟨c, s.past ++ es⟩ := by
  refine ⟨h.1.moves hmoves, ?_⟩
  dsimp only
  rw [hmoves.file_eq]
  exact h.2

def writeDown (m : Machine) : Op Unit := do
  orSystemError (single .createFile)
  orSystemError (single (.appendFile (Image.encode m)))
  single (.note (.savedTo (← single .statePath)))

/-- When the copy was written down, the file took its image. -/
theorem writeDown_secures (m : Machine) (h : s.Rests ds) :
    (writeDown m).run.Secures sc (Fits sc q)
      (fun
        | .ok _, s => RestsOn ds (StateFile.Took (Image.encode m)) s
        | .error e, s => (∃ e', e = .system e') ∧ s.Rests ds) s := by
  have hrests {s : Scene} {c : Console} {es : List Event} (h : s.Rests ds) (hmoves : s.console.Moves sc c es) :
      Scene.Rests ds ⟨c, s.past ++ es⟩ := h.moves hmoves
  have hbytes : Image.encode m ≠ [] := List.ne_nil_of_length_pos (by rw [Image.length_encode]; decide)
  have hcreate : (single .createFile).Secures sc (Fits sc q)
      (fun x s => s.Rests ds ∧ (x = .ok () → s.console.file.Blank)) s := by
    refine single_secures hrests h fun s h => ⟨Scene.fits_of_inert (a := .createFile) trivial s, ?_⟩
    cases hfile : s.console.file.create with
    | ok file =>
      refine ⟨.ok (), { s.console with file }, by simp only [Console.act, hfile], rfl, ?_⟩
      exact ⟨h.unmoved ⟨rfl, rfl, rfl, rfl, rfl, rfl⟩, fun _ => StateFile.blank_of_create hfile⟩
    | error e => exact ⟨.error e, s.console, by simp only [Console.act, hfile], rfl, h, by rintro ⟨⟩⟩
  refine leads_system hcreate (fun _ s₁ h₁ => ?_) fun e s₁ h₁ => ⟨_, rfl, ⟨e, rfl⟩, h₁.1⟩
  have hblank : RestsOn ds StateFile.Blank s₁ := ⟨h₁.1, h₁.2 rfl⟩
  have happend : (single (.appendFile (Image.encode m))).Secures sc (Fits sc q)
      (fun x s => s.Rests ds ∧ (x = .ok () → s.console.file.Took (Image.encode m))) s₁ := by
    refine single_secures RestsOn.moves hblank fun s h => ⟨Scene.fits_of_inert (a := .appendFile _) trivial s, ?_⟩
    cases hfile : s.console.file.append (Image.encode m) with
    | ok file =>
      refine ⟨.ok (), { s.console with file }, by simp only [Console.act, hfile], rfl, ?_⟩
      exact ⟨h.1.unmoved ⟨rfl, rfl, rfl, rfl, rfl, rfl⟩, fun _ => StateFile.took_of_append h.2 hbytes hfile⟩
    | error e => exact ⟨.error e, s.console, by simp only [Console.act, hfile], rfl, h.1, by rintro ⟨⟩⟩
  refine leads_system happend (fun _ s₂ h₂ => ?_) fun e s₂ h₂ => ⟨_, rfl, ⟨e, rfl⟩, h₂.1⟩
  have htook : RestsOn ds (StateFile.Took (Image.encode m)) s₂ := ⟨h₂.1, h₂.2 rfl⟩
  have hpath : (single .statePath).Secures sc (Fits sc q) (fun _ => RestsOn ds (StateFile.Took (Image.encode m))) s₂ :=
    single_secures RestsOn.moves htook fun s h => ⟨⟨trivial, trivial⟩, _, _, rfl, rfl, h⟩
  refine Secures.lift hpath fun path s₃ h₃ => ?_
  have hnote : (single (.note (.savedTo path))).Secures sc (Fits sc q)
      (fun _ => RestsOn ds (StateFile.Took (Image.encode m))) s₃ :=
    single_secures RestsOn.moves h₃ fun s h =>
      ⟨⟨trivial, trivial⟩, _, _, rfl, rfl, h.1.unmoved ⟨rfl, rfl, rfl, rfl, rfl, rfl⟩, h.2⟩
  exact hnote.lifted fun _ s₄ h₄ => ⟨_, rfl, h₄⟩

/-- A save copies the machine, unless there was a death, and the file takes the image of the copy; whatever else happens
to the file changes nothing. -/
theorem save_secures (hq : q.Copies) (h : s.Rests ds) :
    save.run.Secures sc (Fits sc q)
      (fun
        | .ok _, s => ∃ who m, RestsOn (ds ++ [.copied who m]) (StateFile.Took (Image.encode m)) s
        | .error e, s => Honest e s ∧ (s.Rests ds ∨ ∃ who m, s.Rests (ds ++ [.copied who m]))) s := by
  refine Secures.andThen (capture_secures hq h) (fun m s₁ h₁ => ?_) fun e s₁ h₁ => ?_
  · obtain ⟨who, h₁⟩ := h₁
    refine (writeDown_secures m h₁).mono fun answer s₂ h₂ => ?_
    cases answer with
    | ok => exact ⟨who, m, h₂⟩
    | error e =>
      obtain ⟨⟨e', rfl⟩, h₂⟩ := h₂
      exact ⟨honest_of_ne nofun nofun, .inr ⟨who, m, h₂⟩⟩
  · obtain ⟨rfl, hperished, h₁⟩ := h₁
    exact Secures.done ⟨honest_disconnected hperished, .inl h₁⟩

/-- A load brings the machine whose image the file holds. -/
theorem load_secures (hq : q = .load) (h : s.Rests ds) :
    load.run.Secures sc (Fits sc q)
      (fun
        | .ok _, s' => ∃ who m bytes, s.console.file.read = .ok bytes ∧ Image.decode bytes = .ok m ∧
          s'.Rests (ds ++ [.replaced who m])
        | .error e, s' => Honest e s' ∧ s'.Rests ds) s := by
  have hsame : RestsOn ds (· = s.console.file) s := ⟨h, rfl⟩
  have hmode : (single .readMode).Secures sc (Fits sc q) (fun _ => RestsOn ds (· = s.console.file)) s :=
    single_secures RestsOn.moves hsame fun s h => ⟨⟨trivial, trivial⟩, _, _, rfl, rfl, h⟩
  refine Secures.lift hmode fun mode s₁ h₁ => ?_
  have hread : (single .readFile).Secures sc (Fits sc q) (fun x s' => s'.Rests ds ∧ x = s.console.file.read) s₁ := by
    refine single_secures RestsOn.moves h₁ fun s' h => ⟨⟨trivial, trivial⟩, _, _, rfl, rfl, h.1, ?_⟩
    rw [h.2]
  cases mode with
  | running => exact Secures.done ⟨honest_of_ne nofun nofun, h₁.1⟩
  | stopped | paused =>
    refine leads_system hread (fun bytes s₂ h₂ => ?_) fun e s₂ h₂ => ⟨_, rfl, honest_of_ne nofun nofun, h₂.1⟩
    cases hdecode : Image.decode bytes with
    | error d => exact Secures.done ⟨honest_of_ne nofun nofun, h₂.1⟩
    | ok m =>
      refine Secures.andThen (restore_secures (.inr hq) h₂.1) (fun _ s₃ h₃ => ?_) fun e s₃ h₃ => Secures.done h₃
      obtain ⟨who, h₃⟩ := h₃
      refine Leads.inert Scene.firm_rests trivial h₃ fun _ s₄ h₄ => ?_
      exact Leads.inert Scene.firm_rests trivial h₄ fun _ s₅ h₅ =>
        Secures.done ⟨who, m, bytes, h₂.2.symm, hdecode, h₅⟩

end Order

end ChipEight
