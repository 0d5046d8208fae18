import ChipEight.Proofs.Image.RoundTrip
import ChipEight.Proofs.Office.Answers
import ChipEight.Proofs.Textures

/-!
# What is shown

Whatever a machine was before, once the screen is cleared or an image was loaded, its cells are dark or lit, and stay so
as long as only machines from images, and copies made since, are put in its place.  So the pictures
of all that it shows (`frame_buffer`, `frame_to_sdl_texture`) are exact.

* `Event.Repaints` : what an event means for the screen; `Scene.grants_plain` : whoever makes it keeps to that.
* `Office.pictures` : every picture of such an office is exact.
-/

namespace ChipEight

/-! ### Events -/

/-- The machine was read from an image. -/
def Machine.Loadable (m : Machine) : Prop := ∃ bytes, Image.decode bytes = .ok m

theorem Machine.Loadable.plain {m : Machine} (h : m.Loadable) : m.screen.Plain := by
  obtain ⟨bytes, hbytes⟩ := h
  exact (Image.wellFormed_of_decode hbytes).cell_le

namespace Event

/-- With this event the machine shows something new: its screen is cleared, or a machine from an image is put in its
place. -/
def Renews : Event → Prop
  | .cleared => True
  | .replaced _ m => m.Loadable
  | _ => False

/-- Only machines from images are put in place, and copies made before. -/
def Trusted (es : List Event) : Prop :=
  ∀ before who m after, es = before ++ .replaced who m :: after →
    m.Loadable ∨ ∃ who', .copied who' m ∈ before

theorem Trusted.of_append {es es' : List Event} (h : Trusted (es ++ es')) : Trusted es := by
  rintro before who m after rfl
  exact h before who m (after ++ es') (by simp)

def Repaints (s s' : Screen) : Event → Prop
  | .cleared => s' = .blank
  | .replaced _ m => s' = m.screen
  | .copied _ m => m.screen = s ∧ s' = s
  | _ => s.Plain → s'.Plain

namespace Repaints

variable {e : Event} {s s' : Screen}

theorem plain_of_renews (h : e.Repaints s s') (hrenews : e.Renews) : s'.Plain := by
  cases e with
  | cleared =>
    obtain rfl : s' = .blank := h
    exact Screen.get_blank_le
  | replaced who m =>
    obtain rfl : s' = m.screen := h
    exact hrenews.plain
  | _ => exact hrenews.elim

theorem plain (h : e.Repaints s s') (hs : s.Plain) (hreplaced : ∀ who m, e = .replaced who m → m.screen.Plain) :
    s'.Plain := by
  cases e with
  | cleared => exact h.plain_of_renews trivial
  | replaced who m =>
    obtain rfl : s' = m.screen := h
    exact hreplaced who m rfl
  | copied who m =>
    obtain ⟨-, rfl⟩ : m.screen = s ∧ s' = s := h
    exact hs
  | _ => exact h hs

end Repaints

end Event

open Event

/-- From every new beginning on, this screen has dark and lit cells, and so have the screens that were copied since. -/
def PlainSince (past : List Event) (s : Screen) : Prop :=
  ∀ before e after, past = before ++ e :: after → e.Renews → Trusted after →
    s.Plain ∧ ∀ who m, .copied who m ∈ after → m.screen.Plain

namespace PlainSince

variable {past : List Event} {e : Event} {s s' : Screen}

theorem mono (h : PlainSince past s) (hs : s.Plain → s'.Plain) : PlainSince past s' :=
  fun before e after hpast hrenews htrusted => (h before e after hpast hrenews htrusted).imp hs id

/-- One more event. -/
theorem concat (h : PlainSince past s) (he : e.Repaints s s') : PlainSince (past ++ [e]) s' := by
  intro before e' after hpast hrenews htrusted
  rcases List.eq_nil_or_concat' after with rfl | ⟨earlier, last, rfl⟩
  -- it is the new beginning itself
  · obtain ⟨-, hsame⟩ := List.append_inj' hpast rfl
    obtain rfl := List.singleton_inj.mp hsame
    exact ⟨he.plain_of_renews hrenews, nofun⟩
  -- it comes after one
  · rw [← List.cons_append, ← List.append_assoc] at hpast
    obtain ⟨hearlier, hsame⟩ := List.append_inj' hpast rfl
    obtain rfl := List.singleton_inj.mp hsame
    obtain ⟨hs, hcopies⟩ := h before e' earlier hearlier hrenews htrusted.of_append
    refine ⟨he.plain hs fun who m hreplaced => ?_, fun who m hmem => ?_⟩
    · rcases htrusted earlier who m [] (by rw [hreplaced]) with hloadable | ⟨who', hcopied⟩
      · exact hloadable.plain
      · exact hcopies who' m hcopied
    · rcases List.mem_append.mp hmem with hold | hnew
      · exact hcopies who m hold
      · obtain rfl := List.mem_singleton.mp hnew
        obtain ⟨rfl, -⟩ : m.screen = s ∧ s' = s := he
        exact hs

end PlainSince

/-! ### Moves and actions -/

def Scene.PlainSince (s : Scene) : Prop := ChipEight.PlainSince s.past s.console.board.screen

namespace Console

variable {sc : Scenario} {c c' : Console} {es past : List Event}

theorem plain_upcoming (sc : Scenario) (c : Console) (r : Runner) (h : c.board.screen.Plain) :
    (c.upcoming sc r).2.screen.Plain :=
  Session.plain_step sc.toSurroundings (s := c.session r.processor) h

theorem plainSince_moves (h : PlainSince past c.board.screen) (hmoves : c.Moves sc c' es) :
    PlainSince (past ++ es) c'.board.screen := by
  cases hmoves with
  | pass | leave | hush =>
    rw [List.append_nil]
    exact h
  | copy => exact h.concat ⟨rfl, rfl⟩
  | install => exact h.concat rfl
  | @step r hlive => exact h.concat (c.plain_upcoming sc r)
  | @die r hlive =>
    have hstepped : PlainSince (past ++ [.stepped]) (c.upcoming sc r).2.screen := h.concat (c.plain_upcoming sc r)
    have hdied : PlainSince (past ++ [.stepped] ++ [.died]) (c.upcoming sc r).2.screen := hstepped.concat id
    rwa [List.append_assoc] at hdied
  | fail | tick => exact h.concat id

theorem plainSince_acts {a : Action} {x : a.Answer} (h : PlainSince past c.board.screen) (hact : c.act a = some (x, c')) :
    PlainSince (past ++ a.events x) c'.board.screen := by
  have hsame (hreset : a ≠ .resetBoard) (hreplace : ∀ m, a ≠ .replaceParked m) : PlainSince past c'.board.screen := by
    rcases (footprint_of_act hact).screen with hscreen | rfl | ⟨m, rfl⟩
    · exact h.mono fun hplain => hscreen ▸ hplain
    · exact absurd rfl hreset
    · exact absurd rfl (hreplace m)
  have hnone (h : PlainSince past c'.board.screen) : PlainSince (past ++ []) c'.board.screen :=
    (List.append_nil past).symm ▸ h
  cases a with
  | resetBoard =>
    cases hact
    exact h.concat rfl
  | replaceParked m =>
    cases hact
    exact h.concat rfl
  | captureParked =>
    cases hact
    exact h.concat ⟨rfl, rfl⟩
  | park p => exact (hsame nofun nofun).concat id
  | spawnRunner => cases x <;> exact (hsame nofun nofun).concat id
  | spawnMetronome =>
    cases x with
    | false => exact (hsame nofun nofun).concat id
    | true => exact hnone (hsame nofun nofun)
  | note n =>
    cases n with
    | previousRunEnded f => exact (hsame nofun nofun).concat id
    | _ => exact hnone (hsame nofun nofun)
  | _ => exact hnone (hsame nofun nofun)

end Console

namespace Scene

theorem grants_plain (sc : Scenario) :
    Grants sc (fun _ _ => True) (fun _ => True) (fun _ => False) Scene.PlainSince where
  moves h hmoves := .inr (Console.plainSince_moves h hmoves)
  acts h _ hact := ⟨trivial, Console.plainSince_acts h hact⟩

theorem lasts_plain : Lasts Scene.PlainSince where
  called h := h.concat id
  answered h := h.concat id
  refused h := h
  filed h := h

end Scene

/-! ### Every history -/

namespace Office

variable {o : Office}

/-- **Every history.**  Nothing is asked of those who come. -/
theorem Reachable.plainSince (h : o.Reachable) :
    o.Kept (fun _ _ => True) (fun _ => True) Scene.PlainSince := by
  have hcalled (q : Request) : q.order.run.Within (fun _ _ => True) (fun _ => True) fun _ => True :=
    (Order.request_within (fun _ _ => True) q).mono (fun _ _ h => h) (fun _ _ => trivial) fun _ _ => trivial
  induction h with
  | new s =>
    refine ⟨?_, nofun⟩
    intro before e after hpast
    simp [Office.new] at hpast
  | @run o sc h hidle hsc turns ih =>
    clear h hidle
    induction turns generalizing o with
    | nil => exact ih
    | cons t turns ihturns =>
      exact ihturns (ih.advance hsc (Scene.grants_plain sc) Scene.lasts_plain fun q _ _ => hcalled q)

/-- What this office shows has begun with a cleared screen or an image. -/
def Shows (o : Office) : Prop := ∃ before e after, o.past = before ++ e :: after ∧ e.Renews ∧ Trusted after

/-- **Pictures are exact.**  Whatever happened before the screen was cleared or an image was loaded, as long as only
machines from images are put in place after that, or copies made since: the picture of what is shown is made without a
product that passes a byte, has three bytes for each cell, each of them 255 times the cell, and is the picture of no
other screen. -/
theorem pictures (h : o.Reachable) (hshows : o.Shows) :
    let s := o.console.board.screen
    Checked.texture s = .ok s.texture ∧ s.texture.length = 6144 ∧
      (∀ j, s.texture[j]?.map UInt8.toNat = s[j / 3]?.map fun a => 255 * a.toNat) ∧
      ∀ s' : Screen, s'.texture = s.texture → s' = s := by
  obtain ⟨before, e, after, hpast, hrenews, htrusted⟩ := hshows
  obtain ⟨hplain, -⟩ := h.plainSince.scene before e after hpast hrenews htrusted
  exact ⟨Checked.texture_eq hplain, Screen.length_texture _, hplain.toNat_texture, fun _ => Screen.texture_injective⟩

/-- Where nobody copies or replaces the machine, the office shows what has become of a cleared screen. -/
theorem shows_of_cleared (hcleared : .cleared ∈ o.past) (hdeals : deals o.past = []) : o.Shows := by
  obtain ⟨before, after, hpast⟩ := List.append_of_mem hcleared
  refine ⟨before, .cleared, after, hpast, trivial, ?_⟩
  rintro earlier who m later rfl
  have hdeal : .replaced who m ∈ deals o.past := List.mem_filter.mpr ⟨by simp [hpast], rfl⟩
  rw [hdeals] at hdeal
  cases hdeal

/-- A glyph is drawn into the corner, and then nothing more happens. -/
def glyphDrawn : Office := (Office.new {}).run alone (session (.reset [0xD0, 0x05, 0x12, 0x02]))

theorem pictures_glyphDrawn :
    glyphDrawn.Reachable ∧ glyphDrawn.Shows ∧
      let s := glyphDrawn.console.board.screen
      s.litCount = 14 ∧ Checked.texture s = .ok s.texture ∧ s.texture.length = 6144 ∧
        (∀ j, s.texture[j]?.map UInt8.toNat = s[j / 3]?.map fun a => 255 * a.toNat) ∧
        ∀ s' : Screen, s'.texture = s.texture → s' = s := by
  have hreachable : glyphDrawn.Reachable := .run (.new {}) rfl (only_alone _) _
  obtain ⟨hany, hdeals, hlit⟩ : (glyphDrawn.past.any fun | .cleared => true | _ => false) = true ∧
      (deals glyphDrawn.past).isEmpty = true ∧ glyphDrawn.console.board.screen.litCount = 14 := by decide +kernel
  have hcleared : .cleared ∈ glyphDrawn.past := by
    obtain ⟨e, hmem, he⟩ := List.any_eq_true.mp hany
    cases e with
    | cleared => exact hmem
    | _ => cases he
  have hshows := shows_of_cleared hcleared (List.isEmpty_iff.mp hdeals)
  exact ⟨hreachable, hshows, hlit, pictures hreachable hshows⟩

end Office

end ChipEight
