import ChipEight.Proofs.Dumps
import ChipEight.Proofs.Sprites

/-!
# Glyphs in memory

The glyphs are put at the start of memory when the machine is set up, and programs find them there by their own
reckoning.

* `Glyph.Holds` : every glyph is in its place; `Glyph.holds_install` : they are after they were put there.
* `Processor.Laid` : where everything is that power-on and a program leave in memory.
* `Core.Strays` : what a run comes to that writes no byte below an address.
* `Core.glyphs_found` : after such a run, a glyph that is asked for is the one that is drawn.
-/

namespace ChipEight

/-! ### The sheet of glyphs -/

namespace Glyph

variable {n : Nat}

abbrev sheetSize : Nat := 16 * height

def digit (b : UInt8) : Digit := Fin.ofNat 16 b.toNat

/-- Every glyph is where it belongs in the block. -/
def Holds (m : Bytes n) : Prop := ∀ (d : Digit) (r : Fin height), m[height * d.val + r.val]? = (rows d)[r.val]?

/-- The bits of a glyph on the screen whose upper left corner is in column `x` of row `y`. -/
def paints (d : Digit) (x y : Nat) (a : Fin Screen.width) (b : Fin Screen.height) : Bool :=
  decide (x ≤ a ∧ a < x + 8 ∧ y ≤ b ∧ b < y + height) &&
    ((rows d)[b - y]?).any fun row => row.toNat.testBit (7 - (a - x))

theorem length_sheet : sheet.length = sheetSize := by decide

theorem length_rows (d : Digit) : (rows d).length = height := by
  revert d
  decide

theorem getElem?_sheet (d : Digit) (r : Fin height) : sheet[height * d.val + r.val]? = (rows d)[r.val]? := by
  revert d r
  decide

theorem add_lt_sheetSize (d : Digit) (r : Fin height) : height * d.val + r.val < sheetSize := by
  have hd := d.isLt
  have hr := r.isLt
  simp only [sheetSize, height] at hr ⊢
  omega

theorem holds_install (m : Bytes n) (h : sheetSize ≤ n) : Holds (install m) := by
  intro d r
  have hroom : 0 + sheet.length ≤ n := by rwa [length_sheet, Nat.zero_add]
  have hbyte := Bytes.getElem?_put m 0 sheet hroom (by rw [length_sheet]; exact add_lt_sheetSize d r)
  rw [Nat.zero_add, getElem?_sheet] at hbyte
  exact hbyte

theorem getElem?_install (m : Bytes n) {a : Nat} (h : sheetSize ≤ a) : (install m)[a]? = m[a]? :=
  Bytes.getElem?_put_of_outside m (by rw [length_sheet]; omega)

theorem Holds.of_eq {m m' : Bytes n} (hm : Holds m) (h : ∀ a < sheetSize, m'[a]? = m[a]?) : Holds m' :=
  fun d r => (h _ (add_lt_sheetSize d r)).trans (hm d r)

theorem toNat_address (b : UInt8) : (address b).toNat = height * (digit b).val := by
  have hdigit : (digit b).val = b.toNat % 16 := rfl
  unfold address
  rw [UInt8.toNat_toUInt16, UInt8.toNat_mul, UInt8.toNat_mod, hdigit]
  simp only [UInt8.reduceToNat, height]
  omega

/-- A glyph in its place is what a run of bytes from its address on gives. -/
theorem Holds.slice_eq {m : Bytes n} (h : Holds m) (hroom : sheetSize ≤ n) (d : Digit) :
    m.slice (height * d.val) height = rows d := by
  have hfits : height * d.val + height ≤ n := by
    have hd := d.isLt
    simp only [sheetSize, height] at hroom ⊢
    omega
  refine List.ext_getElem? fun r => ?_
  rcases Nat.lt_or_ge r height with hr | hr
  · rw [Bytes.getElem?_slice m _ _ hfits hr]
    exact h d ⟨r, hr⟩
  · have hslice : (m.slice (height * d.val) height).length ≤ r := by
      rw [Bytes.length_slice]
      omega
    rw [List.getElem?_eq_none hslice, List.getElem?_eq_none (by rwa [length_rows])]

end Glyph

/-! ### Memory after power-on -/

namespace Processor

/-- The glyphs, the program, and nothing else in memory. -/
structure Laid (p : Processor) (program : List UInt8) : Prop where
  glyphs : Glyph.Holds p.memory
  between (a : Nat) : Glyph.sheetSize ≤ a → a < Memory.programStart → p.memory[a]? = some 0
  text (j : Nat) : j < program.length → p.memory[Memory.programStart + j]? = program[j]?
  beyond (a : Nat) : Memory.programStart + program.length ≤ a → a < Memory.size → p.memory[a]? = some 0

theorem getElem?_powerOn {a : Nat} (h : Glyph.sheetSize ≤ a) (ha : a < Memory.size) : powerOn.memory[a]? = some 0 :=
  (Glyph.getElem?_install _ h).trans (Vector.getElem?_replicate_of_lt ha)

theorem laid_of_withProgram? {program : List UInt8} {p : Processor} (h : withProgram? program = some p) :
    p.Laid program := by
  unfold withProgram? at h
  split at h
  case isFalse => cases h
  case isTrue hfits =>
    cases h
    have hroom : Memory.programStart + program.length ≤ Memory.size := by
      simp only [Memory.programRoom, Memory.programStart, Memory.size] at hfits ⊢
      omega
    have hoff {a : Nat} (ha : a < Memory.programStart ∨ Memory.programStart + program.length ≤ a) :
        (powerOn.memory.put Memory.programStart program)[a]? = powerOn.memory[a]? :=
      Bytes.getElem?_put_of_outside powerOn.memory ha
    refine ⟨?_, fun a ha hlt => ?_, fun j hj => Bytes.getElem?_put _ _ _ hroom hj, fun a ha hlt => ?_⟩
    · have hglyphs : Glyph.Holds powerOn.memory := Glyph.holds_install _ (by decide)
      exact hglyphs.of_eq fun a ha => hoff (.inl (Nat.lt_trans ha (by decide)))
    · exact (hoff (.inl hlt)).trans (getElem?_powerOn ha (Nat.lt_trans hlt (by decide)))
    · have hlow : Glyph.sheetSize ≤ a :=
        Nat.le_trans (show Glyph.sheetSize ≤ Memory.programStart by decide) (Nat.le_trans (Nat.le_add_right _ _) ha)
      exact (hoff (.inr ha)).trans (getElem?_powerOn hlow hlt)

end Processor

/-! ### Runs that leave the start of memory alone -/

namespace Core

/-- The operation writes no byte below this address.  To replace the machine is to write them all. -/
def Spares (c : Core) (top : Nat) : Op → Prop
  | .step => ∀ w, c.machine.Fetches w → ∀ a < top, ¬ w.MayChange c.machine (.byte a)
  | .exec w => ∀ a < top, ¬ w.MayChange c.machine (.byte a)
  | .tick | .reset => True
  | .restore _ => False

/-- What a run comes to that writes no byte below this address, whatever keys are held and whatever chance brings. -/
inductive Strays (top : Nat) (c : Core) : Core → Prop
  | start : Strays top c c
  | perform {c' : Core} {op : Op} (o : Surroundings) (h : Strays top c c') (hop : c'.Spares top op) :
      Strays top c (c'.perform o op).2

variable {c c' : Core} {top : Nat} {op : Op} {w : Word} {o : Surroundings}

theorem Spares.same (h : c.Spares top op) (o : Surroundings) {a : Nat} (ha : a < top) :
    (c.perform o op).2.processor.memory[a]? = c.processor.memory[a]? := by
  cases op with
  | step => exact c.session.same_step o (p := .byte a) fun w hw => h w hw a ha
  | exec w => exact c.session.same_execWord o (p := .byte a) (h a ha)
  | tick | reset => rfl
  | restore m => exact h.elim

theorem Strays.same (h : c.Strays top c') {a : Nat} (ha : a < top) :
    c'.processor.memory[a]? = c.processor.memory[a]? := by
  induction h with
  | start => rfl
  | perform o _ hop ih => exact (hop.same o ha).trans ih

/-! ### Asking for a glyph and drawing it -/

theorem perform_glyph (o : Surroundings) (c : Core) (hf : w.family = 0xF) (hkk : w.kk = 0x29) :
    c.perform o (.exec w) = (.ended .next, { c with processor.i := Glyph.address (c.processor.reg w.x) }) := by
  have hexec := c.session.execWord_of_reads o (i := .glyph w.x) ⟨hf, hkk, rfl⟩
  unfold perform
  simp only [hexec]
  rfl

/-- **A glyph is asked for**: the index register points at it, and memory stays. -/
theorem Enacts.glyph (h : c.Enacts op w) (o : Surroundings) (hf : w.family = 0xF) (hkk : w.kk = 0x29) :
    (c.perform o op).1 = .ended .next ∧
      (c.perform o op).2.processor.i = Glyph.address (c.processor.reg w.x) ∧
      (c.perform o op).2.processor.memory = c.processor.memory := by
  obtain ⟨pc, hperform⟩ := h.perform_eq o
  rw [hperform, perform_glyph o { c with processor.pc := pc } hf hkk]
  exact ⟨rfl, rfl, rfl⟩

theorem base_of_address {p : Processor} {b : UInt8} (hi : p.i = Glyph.address b) :
    p.base = Glyph.height * (Glyph.digit b).val := by
  have hlt := (Glyph.digit b).isLt
  unfold Processor.base
  rw [hi, Glyph.toNat_address]
  simp only [Glyph.height]
  omega

/-- The five rows that are drawn from there are the rows of the glyph, so its bits are the ones that are drawn. -/
theorem paints_glyph {p : Processor} {b : UInt8} (hp : Glyph.Holds p.memory) (hi : p.i = Glyph.address b)
    (hn : w.n.val = Glyph.height) : w.paints p = Glyph.paints (Glyph.digit b) (w.column p) (w.row p) := by
  funext x y
  have hbase := base_of_address hi
  unfold Word.paints Glyph.paints
  rw [hn, hbase]
  by_cases hin : w.column p ≤ x ∧ x < w.column p + 8 ∧ w.row p ≤ y ∧ y < w.row p + Glyph.height
  · have hrow : y.val - w.row p < Glyph.height := by omega
    rw [hp (Glyph.digit b) ⟨y.val - w.row p, hrow⟩]
  · rw [decide_eq_false hin, Bool.false_and, Bool.false_and]

/-- **A glyph is drawn** where the index register points at it. -/
theorem Enacts.draws (h : c.Enacts op w) (o : Surroundings) (hf : w.family = 0xD) (hn : w.n.val = Glyph.height)
    {b : UInt8} (hi : c.processor.i = Glyph.address b) :
    (c.perform o op).1 = .ended .next ∧
      ∃ pc, w.Drawn { c with processor.pc := pc } (c.perform o op).2 := by
  obtain ⟨pc, hperform⟩ := h.perform_eq o
  have hroom : c.processor.base + w.n.val ≤ Memory.size := by
    have hlt := (Glyph.digit b).isLt
    rw [base_of_address hi, hn]
    simp only [Glyph.height, Memory.size]
    omega
  rw [hperform, perform_draw o { c with processor.pc := pc } hf hroom]
  exact ⟨rfl, pc, drawn_of_draws { c with processor.pc := pc } hroom⟩

/-- **A glyph that is asked for is the one that is drawn.**  Power-on and a program that fits leave the glyphs, the
program and zeros in memory, and in any block that has room for the glyphs nothing but their own bytes is changed.  From
there on, however a run goes that does not write to them: the word `Fx29` points the index register at the five rows of
the glyph of the low digit of its register, at an address for which a byte is large enough; and a word `Dxy5` that finds
the index register still pointing there goes through and turns over the pixels of that glyph and no others. -/
theorem glyphs_found :
    (∀ program : List UInt8, program.length ≤ 3584 →
      ∃ p, Processor.withProgram? program = some p ∧ p.Laid program) ∧
    (∀ (n : Nat) (m : Bytes n), 80 ≤ n →
      Glyph.Holds (Glyph.install m) ∧ ∀ a, 80 ≤ a → (Glyph.install m)[a]? = m[a]?) ∧
    ∀ (program : List UInt8) (c₀ c : Core),
      Processor.withProgram? program = some c₀.processor → c₀.Strays 80 c →
        Glyph.Holds c.processor.memory ∧
        ∀ (o : Surroundings) (op : Op) (w : Word), c.Enacts op w → w.family = 0xF → w.kk = 0x29 →
          (c.perform o op).1 = .ended .next ∧
          (c.perform o op).2.processor.i.toNat = 5 * ((c.processor.reg w.x).toNat % 16) ∧
          (c.perform o op).2.processor.memory.slice (c.perform o op).2.processor.i.toNat 5 =
            Glyph.rows (Glyph.digit (c.processor.reg w.x)) ∧
          ∀ c' : Core, (c.perform o op).2.Strays 80 c' → c'.processor.i = (c.perform o op).2.processor.i →
            ∀ (o' : Surroundings) (op' : Op) (w' : Word), c'.Enacts op' w' → w'.family = 0xD → w'.n = 5 →
              (c'.perform o' op').1 = .ended .next ∧
              (∃ pc, w'.Drawn { c' with processor.pc := pc } (c'.perform o' op').2) ∧
              w'.paints c'.processor =
                Glyph.paints (Glyph.digit (c.processor.reg w.x)) (w'.column c'.processor) (w'.row c'.processor) := by
  refine ⟨fun program hfits => ?_,
    fun n m hroom => ⟨Glyph.holds_install m hroom, fun a => Glyph.getElem?_install m⟩,
    fun program c₀ c hp hc => ?_⟩
  · have hp : ∃ p, Processor.withProgram? program = some p := ⟨_, if_pos hfits⟩
    obtain ⟨p, hp⟩ := hp
    exact ⟨p, hp, Processor.laid_of_withProgram? hp⟩
  · have hglyphs : Glyph.Holds c.processor.memory :=
      (Processor.laid_of_withProgram? hp).glyphs.of_eq fun a ha => hc.same ha
    refine ⟨hglyphs, fun o op w hop hf hkk => ?_⟩
    obtain ⟨hnext, hi, hmemory⟩ := hop.glyph o hf hkk
    have haddress : (c.perform o op).2.processor.i.toNat = Glyph.height * (Glyph.digit (c.processor.reg w.x)).val := by
      rw [hi, Glyph.toNat_address]
    have hpointed : Glyph.Holds (c.perform o op).2.processor.memory := hmemory ▸ hglyphs
    refine ⟨hnext, haddress, ?_, fun c' hc' hkept o' op' w' hop' hf' hn => ?_⟩
    · rw [haddress]
      exact hpointed.slice_eq (by decide) _
    · have hsame : Glyph.Holds c'.processor.memory := hpointed.of_eq fun a ha => hc'.same ha
      have hheight : w'.n.val = Glyph.height := congrArg Fin.val hn
      have hpoints := hkept.trans hi
      obtain ⟨hdrawn, hpixels⟩ := hop'.draws o' hf' hheight hpoints
      exact ⟨hdrawn, hpixels, paints_glyph hsame hpoints hheight⟩

/-- A bit that falls on a dark pixel lights it. -/
theorem lit_of_drawn {pc : UInt16} (h : w.Drawn { c with processor.pc := pc } c') {a : Fin Screen.width}
    {b : Fin Screen.height} (hbit : w.paints c.processor a b = true) (hdark : c.board.screen.pixel a b = 0) :
    c'.board.screen.pixel a b = 1 := by
  have hpixel : c'.board.screen.pixel a b = c.board.screen.pixel a b ^^^ if w.paints c.processor a b then 1 else 0 :=
    h.pixel a b
  rw [hpixel, hdark, if_pos hbit]
  decide

/-- A program that draws the last digit of the byte `2A`, and the core that starts with it. -/
def signed : Core where
  processor := { Processor.powerOn with
    memory := Processor.powerOn.memory.put Memory.programStart [0x60, 0x2A, 0xF0, 0x29, 0xD0, 0x15] }

/-- The upper left pixel of an `A` is drawn in column 42. -/
theorem glyphs_found_signed :
    Processor.withProgram? [0x60, 0x2A, 0xF0, 0x29, 0xD0, 0x15] = some signed.processor ∧
      (signed.perform .quiet .step).2.machine.Fetches 0xF029 ∧
      (((signed.perform .quiet .step).2.perform .quiet .step).2.perform .quiet .step).2.board.screen.pixel 42 0 =
        1 := by
  have hp : Processor.withProgram? [0x60, 0x2A, 0xF0, 0x29, 0xD0, 0x15] = some signed.processor := if_pos (by decide)
  have hset : signed.machine.Fetches 0x602A := Machine.fetches_iff.mpr (by decide +kernel)
  have hask : (signed.perform .quiet .step).2.machine.Fetches 0xF029 := Machine.fetches_iff.mpr (by decide +kernel)
  have hdraw : ((signed.perform .quiet .step).2.perform .quiet .step).2.machine.Fetches 0xD015 :=
    Machine.fetches_iff.mpr (by decide +kernel)
  have hspares : signed.Spares 80 .step := by
    intro w hw a _ hmay
    rw [Machine.fetches_unique hw hset] at hmay
    exact absurd hmay.1 (by decide)
  obtain ⟨-, hfound⟩ := glyphs_found.2.2 _ signed _ hp (.perform .quiet .start hspares)
  obtain ⟨-, -, -, hdrawn⟩ := hfound .quiet .step 0xF029 (.inr ⟨rfl, hask⟩) (by decide) (by decide)
  -- the core before the drawing is kept as a variable, or it would be computed
  have hlit (c' : Core) (hc' : c' = ((signed.perform .quiet .step).2.perform .quiet .step).2) :
      (c'.perform .quiet .step).2.board.screen.pixel 42 0 = 1 := by
    obtain ⟨-, ⟨pc, hpixels⟩, hpaints⟩ :=
      hdrawn c' (hc' ▸ .start) (by rw [hc']) .quiet .step 0xD015 (.inr ⟨rfl, hc' ▸ hdraw⟩) (by decide)
        (by decide)
    refine lit_of_drawn hpixels ?_ (by rw [hc']; decide +kernel)
    rw [hpaints, hc']
    decide +kernel
  exact ⟨hp, hask, hlit _ rfl⟩

end Core

end ChipEight
