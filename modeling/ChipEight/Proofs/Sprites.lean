import ChipEight.Proofs.Footprint
import ChipEight.Proofs.Runs

/-!
# Sprites pixel by pixel

Drawing, told by the pixels and not by the walk over the rows of a sprite.

* `Word.paints` : the bits of a sprite that fall on the screen.  What passes an edge is cut off.
* `Core.paints_drawn` : drawing turns over the pixels under those bits and tells whether one of them was lit; nothing
  else changes.
* `Core.strokes_commute` : sprites that are drawn one after the other may be drawn in any order, and drawn twice they
  leave no trace.
-/

namespace ChipEight

def Screen.pixel (s : Screen) (a : Fin width) (b : Fin height) : UInt8 :=
  s.get ⟨b * width + a, by simp only [size, width, height]; omega⟩

/-- The column of the upper left corner of the sprite that the word draws. -/
def Word.column (w : Word) (p : Processor) : Nat := (p.reg w.x).toNat % 64

def Word.row (w : Word) (p : Processor) : Nat := (p.reg w.y).toNat % 32

/-- **The bits of a sprite on the screen**: the word draws a set bit in column `a` of row `b`. -/
def Word.paints (w : Word) (p : Processor) (a : Fin Screen.width) (b : Fin Screen.height) : Bool :=
  decide (w.column p ≤ a ∧ a < w.column p + 8 ∧ w.row p ≤ b ∧ b < w.row p + w.n) &&
    (p.memory[p.base + (b - w.row p)]?).any fun byte => byte.toNat.testBit (7 - (a - w.column p))

/-- Between two cores the word has drawn its sprite and nothing else. -/
structure Word.Drawn (w : Word) (c c' : Core) : Prop where
  pixel : ∀ a b, c'.board.screen.pixel a b =
    c.board.screen.pixel a b ^^^ if w.paints c.processor a b then 1 else 0
  flag : c'.processor.reg 0xF = 1 ↔ ∃ a b, w.paints c.processor a b = true ∧ c.board.screen.pixel a b = 1
  flag_or : c'.processor.reg 0xF = 0 ∨ c'.processor.reg 0xF = 1
  rest : c' = { c with
    processor.v := c.processor.v.setIfInBounds 15 (c'.processor.reg 0xF)
    board.screen := c'.board.screen }

/-! ### The cells under a sprite -/

namespace Screen

theorem cell?_eq_pixel (a : Fin width) (b : Fin height) :
    cell? a b = some ⟨b * width + a, by simp only [size, width, height]; omega⟩ :=
  dif_pos ⟨a.isLt, b.isLt⟩

theorem exists_cell? (c : Cell) : ∃ (a : Fin width) (b : Fin height), cell? a b = some c := by
  have hc := c.isLt
  simp only [size, width, height] at hc
  refine ⟨⟨c % 64, Nat.mod_lt _ (by decide)⟩, ⟨c / 64, by simp only [height]; omega⟩, cell?_eq_some_iff.mpr ?_⟩
  simp only [width, height]
  omega

theorem pixel_eq_get (s : Screen) {a : Fin width} {b : Fin height} {c : Cell} (h : cell? a b = some c) :
    s.pixel a b = s.get c := by
  rw [cell?_eq_pixel, Option.some.injEq] at h
  rw [← h]
  rfl

end Screen

namespace Word

variable (w : Word) (p : Processor)

def rows : List UInt8 := p.memory.slice p.address.toNat w.n

def cells : List Screen.Cell := Sprite.cells (w.column p) (w.row p) (w.rows p)

variable {w p}

theorem getElem?_rows (h : p.base + w.n.val ≤ Memory.size) {j : Nat} (hj : j < w.n.val) :
    (w.rows p)[j]? = p.memory[p.base + j]? := by
  have hbase : p.address.toNat = p.base := p.toNat_address
  have hin : p.base + j < Memory.size := by omega
  have hlen : j < (p.memory.slice p.base w.n).length := by
    rw [Bytes.length_slice]
    omega
  unfold rows
  rw [hbase, List.getElem?_eq_getElem hlen, Vector.getElem?_eq_getElem hin, Bytes.getElem_slice p.memory hlen hin]

theorem length_rows (h : p.base + w.n.val ≤ Memory.size) : (w.rows p).length = w.n := by
  have hbase : p.address.toNat = p.base := p.toNat_address
  rw [rows, Bytes.length_slice, hbase]
  omega

/-- The cells that a word turns over are those under the bits of its sprite. -/
theorem mem_cells_iff (h : p.base + w.n.val ≤ Memory.size) {a : Fin Screen.width} {b : Fin Screen.height}
    {c : Screen.Cell} (hc : Screen.cell? a b = some c) : c ∈ w.cells p ↔ w.paints p a b = true := by
  obtain ⟨ha, hb, hval⟩ := Screen.cell?_eq_some_iff.mp hc
  unfold paints cells
  rw [Sprite.mem_cells, Bool.and_eq_true, decide_eq_true_eq, Option.any_eq_true]
  constructor
  · rintro ⟨j, byte, hbyte, hmem⟩
    obtain ⟨k, hk, hbit, hcell⟩ := Sprite.mem_rowCells.mp hmem
    obtain ⟨hk', hj', hval'⟩ := Screen.cell?_eq_some_iff.mp hcell
    have hj : j < w.n.val := by
      rw [← length_rows h]
      exact (List.getElem?_eq_some_iff.mp hbyte).1
    simp only [Screen.width] at hval hval' ha hk'
    refine ⟨by omega, byte, ?_, ?_⟩
    · rw [← hbyte, getElem?_rows h hj]
      congr 2
      omega
    · rw [← hbit]
      unfold Sprite.bit
      congr 1
      omega
  · rintro ⟨⟨hleft, hright, htop, hbottom⟩, byte, hbyte, hbit⟩
    refine ⟨b - w.row p, byte, ?_, ?_⟩
    · rw [getElem?_rows h (by omega), hbyte]
    · refine Sprite.mem_rowCells.mpr ⟨a - w.column p, by omega, hbit, ?_⟩
      rw [← hc]
      congr 1 <;> omega

end Word

/-! ### One sprite -/

namespace Session

theorem execWord_draw (o : Surroundings) (s : Session) {w : Word} (hw : w.family = 0xD)
    (h : s.base + w.n.val ≤ Memory.size) :
    s.execWord o w = (.next, { s with
      screen := s.screen.flipAll (w.cells s.toProcessor)
      v := s.v.setIfInBounds 15 (if (w.cells s.toProcessor).any s.screen.lit then 1 else 0) }) := by
  have hfits : s.address.toNat + w.n.val ≤ Memory.size := by rwa [s.toNat_address]
  have hread := s.memory.read_of_le hfits
  rw [s.execWord_of_reads o (i := .draw w.x w.y w.n) ⟨hw, rfl, rfl, rfl⟩]
  simp only [exec, hread]
  rfl

end Session

namespace Core

variable (o : Surroundings)

def drawn (c : Core) (w : Word) : Core :=
  { c with
    processor.v := c.processor.v.setIfInBounds 15 (if (w.cells c.processor).any c.board.screen.lit then 1 else 0)
    board.screen := c.board.screen.flipAll (w.cells c.processor) }

theorem perform_draw (c : Core) {w : Word} (hw : w.family = 0xD) (h : c.processor.base + w.n.val ≤ Memory.size) :
    c.perform o (.exec w) = (.ended .next, c.drawn w) := by
  have hexec := c.session.execWord_draw o hw h
  unfold perform
  simp only [hexec]
  rfl

theorem reg_drawn (c : Core) (w : Word) (x : Digit) :
    (c.drawn w).processor.reg x =
      if 15 = x then if (w.cells c.processor).any c.board.screen.lit then 1 else 0 else c.processor.reg x :=
  Bytes.get_setIfInBounds c.processor.v 15 x _

theorem any_cells_iff (c : Core) {w : Word} (h : c.processor.base + w.n.val ≤ Memory.size) (s : Screen) :
    (w.cells c.processor).any s.lit = true ↔ ∃ a b, w.paints c.processor a b = true ∧ s.pixel a b = 1 := by
  rw [List.any_eq_true]
  constructor
  · rintro ⟨cell, hmem, hlit⟩
    obtain ⟨a, b, hcell⟩ := Screen.exists_cell? cell
    refine ⟨a, b, (Word.mem_cells_iff h hcell).mp hmem, ?_⟩
    rw [s.pixel_eq_get hcell]
    exact beq_iff_eq.mp hlit
  · rintro ⟨a, b, hpaints, hpixel⟩
    have hcell := Screen.cell?_eq_pixel a b
    exact ⟨_, (Word.mem_cells_iff h hcell).mpr hpaints, beq_iff_eq.mpr hpixel⟩

theorem drawn_of_draws (c : Core) {w : Word} (h : c.processor.base + w.n.val ≤ Memory.size) :
    w.Drawn c (c.drawn w) := by
  have hflag := c.reg_drawn w 15
  rw [if_pos rfl] at hflag
  refine ⟨fun a b => ?_, ?_, ?_, ?_⟩
  · have hcell := Screen.cell?_eq_pixel a b
    have hnodup : (w.cells c.processor).Nodup := Sprite.nodup_cells ..
    have hget := Screen.get_flipAll hnodup c.board.screen
    rw [Screen.pixel_eq_get _ hcell, Screen.pixel_eq_get _ hcell]
    refine (hget _).trans ?_
    simp only [List.contains_iff_mem, Word.mem_cells_iff h hcell]
  · rw [← c.any_cells_iff h, hflag]
    cases (w.cells c.processor).any c.board.screen.lit <;> decide
  · rw [hflag]
    cases (w.cells c.processor).any c.board.screen.lit <;> decide
  · rw [hflag]
    rfl

/-- **Drawing, pixel by pixel.**  When its sprite lies inside memory, a drawing word turns over the pixels under the bits of
the sprite and sets the flag just when one of them was lit; coordinates are read before, and what passes an edge of the
screen is cut off.  Nothing else changes, but that a step passes over the word. -/
theorem paints_drawn (c : Core) {w : Word} (hw : w.family = 0xD) (h : c.processor.base + w.n.val ≤ 4096) :
    ∃ c', c.perform o (.exec w) = (.ended .next, c') ∧ w.Drawn c c' ∧
      (c.machine.Fetches w →
        c.perform o .step = (.ended .next, { c' with processor.pc := c.processor.pc + 2 })) := by
  refine ⟨c.drawn w, perform_draw o c hw h, drawn_of_draws c h, fun hfetch => ?_⟩
  rw [perform_step_of_fetches o c hfetch]
  exact perform_draw o _ hw h

/-- A core whose flag register holds both coordinates, with a sprite in the last byte of memory. -/
def cornered : Core where
  processor := { Processor.powerOn with
    v := Vector.replicate 16 0xFE
    i := 0xFFFF
    memory := Bytes.put (.replicate _ 0) 4095 [0xFF] }
  board := { screen := Screen.blank.flip ⟨1983, by decide⟩ }

/-- Two of its eight pixels are on the screen, and one of those was lit. -/
theorem paints_drawn_cornered :
    (0xDFF1 : Word).family = 0xD ∧ cornered.processor.base + (0xDFF1 : Word).n.val ≤ 4096 ∧
      ∃ c', cornered.perform .quiet (.exec 0xDFF1) = (.ended .next, c') ∧ c'.board.screen.pixel 62 30 = 1 ∧
        c'.board.screen.pixel 63 30 = 0 ∧ c'.board.screen.pixel 0 30 = 0 ∧ c'.processor.reg 0xF = 1 := by
  have hw : (0xDFF1 : Word).family = 0xD := by decide
  have hroom : cornered.processor.base + (0xDFF1 : Word).n.val ≤ 4096 := by decide
  obtain ⟨c', hexec, hdrawn, -⟩ := paints_drawn .quiet cornered hw hroom
  refine ⟨hw, hroom, c', hexec, ?_, ?_, ?_, ?_⟩
  · exact (hdrawn.pixel 62 30).trans (by decide +kernel)
  · exact (hdrawn.pixel 63 30).trans (by decide +kernel)
  · exact (hdrawn.pixel 0 30).trans (by decide +kernel)
  · exact hdrawn.flag.mpr ⟨63, 30, by decide +kernel, by decide +kernel⟩

end Core

/-! ### Sprite after sprite -/

/-- A word that points the index register at a sprite, and one that draws it. -/
structure Stroke where
  point : Word
  draw : Word
  deriving DecidableEq

namespace Stroke

/-- The two words do what they are meant for, and neither coordinate is in the register of the flag. -/
structure Plain (k : Stroke) : Prop where
  point : k.point.family = 0xA
  draw : k.draw.family = 0xD
  x_ne : k.draw.x ≠ 0xF
  y_ne : k.draw.y ≠ 0xF

/-- What is executed to draw one sprite after the other. -/
def ops (ks : List Stroke) : List Core.Op := ks.flatMap fun k => [.exec k.point, .exec k.draw]

def Fits (k : Stroke) : Prop := k.point.addr.toNat + k.draw.n.val ≤ Memory.size

def cells (k : Stroke) (p : Processor) : List Screen.Cell := k.draw.cells { p with i := k.point.addr }

theorem base_point (k : Stroke) (p : Processor) : { p with i := k.point.addr }.base = k.point.addr.toNat := by
  have hlt : k.point.addr.toNat < 4096 := by
    unfold Word.addr
    rw [UInt16.toNat_mod]
    exact Nat.mod_lt _ (by decide)
  exact Nat.mod_eq_of_lt hlt

end Stroke

/-- Two processors are the same for every sprite: they differ in the flag at most, and in what sprites do not look at. -/
structure Processor.Poses (p p' : Processor) : Prop where
  memory : p'.memory = p.memory
  reg : ∀ x, x ≠ 0xF → p'.reg x = p.reg x

theorem Stroke.Plain.cells_eq {k : Stroke} (h : k.Plain) {p p' : Processor} (hp : p.Poses p') :
    k.cells p' = k.cells p := by
  have hx := hp.reg k.draw.x h.x_ne
  have hy := hp.reg k.draw.y h.y_ne
  unfold Processor.reg at hx hy
  simp only [Stroke.cells, Word.cells, Word.column, Word.row, Word.rows, Processor.reg, Processor.address, hx, hy,
    hp.memory]

namespace Core

variable (o : Surroundings)

def after (c : Core) (ops : List Op) : Core := ops.foldl (fun c op => (c.perform o op).2) c

def Unfaulted (c : Core) (ops : List Op) : Prop := ∀ s ∈ c.watch o ops, ∀ f, s.answer ≠ .ended (.fault f)

variable {o}

theorem Unfaulted.head {c : Core} {op : Op} {ops : List Op} (h : c.Unfaulted o (op :: ops)) (f : Fault) :
    (c.perform o op).1 ≠ .ended (.fault f) := h _ List.mem_cons_self f

theorem Unfaulted.tail {c : Core} {op : Op} {ops : List Op} (h : c.Unfaulted o (op :: ops)) :
    (c.perform o op).2.Unfaulted o ops := fun s hs => h s (List.mem_cons_of_mem _ hs)

theorem unfaulted_of_next {c : Core} {ops : List Op} (h : ∀ a ∈ (c.watch o ops).map Sight.answer, a = .ended .next) :
    c.Unfaulted o ops := by
  intro s hs f hf
  rw [h s.answer (List.mem_map_of_mem hs)] at hf
  cases hf

theorem after_append (c : Core) (ops ops' : List Op) : c.after o (ops ++ ops') = (c.after o ops).after o ops' :=
  List.foldl_append ..

theorem perform_point (c : Core) {w : Word} (hw : w.family = 0xA) :
    c.perform o (.exec w) = (.ended .next, { c with processor.i := w.addr }) := by
  have hexec := c.session.execWord_of_reads o (i := .setIndex w.addr) ⟨hw, rfl⟩
  unfold perform
  simp only [hexec]
  rfl

theorem paints_self (c : Core) {w : Word} (hx : w.x ≠ 0xF) (hy : w.y ≠ 0xF) :
    w.paints (c.drawn w).processor = w.paints c.processor := by
  have hx := c.reg_drawn w w.x |>.trans (if_neg (Ne.symm hx))
  have hy := c.reg_drawn w w.y |>.trans (if_neg (Ne.symm hy))
  funext a b
  simp only [Word.paints, Word.column, Word.row, hx, hy]
  rfl

/-- A sprite that is drawn lies inside memory. -/
theorem room_of_no_fault (c : Core) {w : Word} (hw : w.family = 0xD)
    (h : ∀ f, (c.perform o (.exec w)).1 ≠ .ended (.fault f)) : c.processor.base + w.n.val ≤ Memory.size := by
  refine Nat.not_lt.mp fun hout => ?_
  have hover : (Instr.draw w.x w.y w.n).fault? c.processor = some _ := if_pos hout
  have hfault := (c.session.exec_endsBy o (.draw w.x w.y w.n)).fault_iff.mpr hover
  have hexec := c.session.execWord_of_reads o (w := w) (i := .draw w.x w.y w.n) ⟨hw, rfl, rfl, rfl⟩
  rw [← hexec] at hfault
  exact h _ (congrArg Answer.ended hfault)

theorem poses_drawn {p : Processor} {c : Core} (h : p.Poses c.processor) (w : Word) (i : UInt16) :
    p.Poses ({ c with processor.i := i }.drawn w).processor := by
  refine ⟨h.memory, fun x hx => ?_⟩
  rw [reg_drawn, if_neg (Ne.symm hx)]
  exact h.reg x hx

theorem fits_of_unfaulted {c : Core} {ks : List Stroke} (hplain : ∀ k ∈ ks, k.Plain) (h : c.Unfaulted o (Stroke.ops ks)) :
    ∀ k ∈ ks, k.Fits := by
  induction ks generalizing c with
  | nil => exact fun k hk => absurd hk List.not_mem_nil
  | cons k ks ih =>
    have hk := hplain k List.mem_cons_self
    intro k' hk'
    rcases List.mem_cons.mp hk' with rfl | hk'
    · have hdraw := h.tail.head
      rw [perform_point c hk.point] at hdraw
      have hroom := room_of_no_fault _ hk.draw hdraw
      rwa [k'.base_point] at hroom
    · exact ih (fun k hk => hplain k (List.mem_cons_of_mem _ hk)) h.tail.tail k' hk'

/-- Sprites drawn one after the other turn over the cells of one after the other. -/
theorem after_strokes {p : Processor} {c : Core} {ks : List Stroke} (hplain : ∀ k ∈ ks, k.Plain)
    (hfits : ∀ k ∈ ks, k.Fits) (h : p.Poses c.processor) :
    (c.after o (Stroke.ops ks)).board.screen = c.board.screen.flipAll (ks.flatMap (·.cells p)) ∧
      p.Poses (c.after o (Stroke.ops ks)).processor := by
  induction ks generalizing c with
  | nil => exact ⟨rfl, h⟩
  | cons k ks ih =>
    have hk := hplain k List.mem_cons_self
    have hroom : { c.processor with i := k.point.addr }.base + k.draw.n.val ≤ Memory.size := by
      rw [k.base_point]
      exact hfits k List.mem_cons_self
    have hdraw : c.after o [.exec k.point, .exec k.draw] = { c with processor.i := k.point.addr }.drawn k.draw := by
      simp only [after, List.foldl_cons, List.foldl_nil]
      rw [perform_point c hk.point, perform_draw o _ hk.draw hroom]
    have hlast := ih (fun k hk => hplain k (List.mem_cons_of_mem _ hk)) (fun k hk => hfits k (List.mem_cons_of_mem _ hk))
      (poses_drawn h k.draw k.point.addr)
    have hops : c.after o (Stroke.ops (k :: ks)) =
        ({ c with processor.i := k.point.addr }.drawn k.draw).after o (Stroke.ops ks) := by
      rw [← hdraw, ← after_append]
      rfl
    rw [hops, List.flatMap_cons, Screen.flipAll_append, ← hk.cells_eq h]
    exact hlast

/-- **Sprites commute and undo themselves.**  A list of sprites none of which faults and none of which takes a coordinate
from the flag gives the same screen in any order, and drawn once more in any order it leaves the screen as it was.  A sprite
that is drawn twice reports on the second time that one of its bits fell on a dark pixel at first. -/
theorem strokes_commute (o : Surroundings) (c : Core) :
    (∀ ks ks' : List Stroke, (∀ k ∈ ks, k.Plain) → c.Unfaulted o (Stroke.ops ks) → ks'.Perm ks →
      (c.after o (Stroke.ops ks')).board.screen = (c.after o (Stroke.ops ks)).board.screen ∧
      (c.after o (Stroke.ops ks ++ Stroke.ops ks')).board.screen = c.board.screen) ∧
    (∀ w : Word, w.family = 0xD → w.x ≠ 0xF → w.y ≠ 0xF → c.Unfaulted o [.exec w, .exec w] →
      ((c.after o [.exec w, .exec w]).processor.reg 0xF = 1 ↔
        ∃ a b, w.paints c.processor a b = true ∧ c.board.screen.pixel a b = 0)) := by
  have hself : c.processor.Poses c.processor := ⟨rfl, fun _ _ => rfl⟩
  refine ⟨fun ks ks' hplain hclean hperm => ?_, fun w hw hx hy hclean => ?_⟩
  · have hfits := fits_of_unfaulted hplain hclean
    have hplain' : ∀ k ∈ ks', k.Plain := fun k hk => hplain k (hperm.mem_iff.mp hk)
    have hfits' : ∀ k ∈ ks', k.Fits := fun k hk => hfits k (hperm.mem_iff.mp hk)
    have hcells : (ks'.flatMap (·.cells c.processor)).Perm (ks.flatMap (·.cells c.processor)) :=
      hperm.flatMap_right _
    obtain ⟨hscreen, hposes⟩ := after_strokes (o := o) hplain hfits hself
    constructor
    · rw [(after_strokes hplain' hfits' hself).1, hscreen]
      exact Screen.flipAll_perm hcells c.board.screen
    · rw [after_append, (after_strokes hplain' hfits' hposes).1, hscreen, Screen.flipAll_perm hcells]
      exact Screen.flipAll_flipAll ..
  · have hroom := room_of_no_fault c hw hclean.head
    have hafter : c.after o [.exec w, .exec w] = (c.drawn w).drawn w := by
      simp only [after, List.foldl_cons, List.foldl_nil]
      rw [perform_draw o c hw hroom, perform_draw o (c.drawn w) hw hroom]
    rw [hafter, (drawn_of_draws (c.drawn w) hroom).flag, paints_self c hx hy]
    refine exists_congr fun a => exists_congr fun b => and_congr_right fun hpaints => ?_
    rw [(drawn_of_draws c hroom).pixel a b, if_pos hpaints]
    exact UInt8.xor_left_inj 1 (b := 0)

/-- Two glyphs of which the second covers part of the first, and one of those again where it passes the right edge. -/
def overlapping : List Stroke := [⟨0xA000, 0xD015⟩, ⟨0xA005, 0xD105⟩, ⟨0xA000, 0xD235⟩]

/-- The glyphs in memory, and registers that hold places for them. -/
def easel : Core where
  processor := { Processor.powerOn with v := Vector.ofFn fun x => [0, 2, 62, 9].getD x.val 0 }

theorem strokes_commute_overlapping :
    (∀ k ∈ overlapping, k.Plain) ∧ easel.Unfaulted .quiet (Stroke.ops overlapping) ∧
      overlapping.reverse.Perm overlapping ∧
      (easel.after .quiet (Stroke.ops overlapping.reverse)).board.screen =
        (easel.after .quiet (Stroke.ops overlapping)).board.screen ∧
      (easel.after .quiet (Stroke.ops overlapping ++ Stroke.ops overlapping.reverse)).board.screen = .blank ∧
      (0xD015 : Word).family = 0xD ∧ (0xD015 : Word).x ≠ 0xF ∧ (0xD015 : Word).y ≠ 0xF ∧
      easel.Unfaulted .quiet [.exec 0xD015, .exec 0xD015] ∧
      (easel.after .quiet [.exec 0xD015, .exec 0xD015]).processor.reg 0xF = 1 := by
  have hplain : ∀ k ∈ overlapping, k.Plain := by
    intro k hk
    simp only [overlapping, List.mem_cons, List.not_mem_nil, or_false] at hk
    rcases hk with rfl | rfl | rfl <;> exact ⟨by decide, by decide, by decide, by decide⟩
  have hclean : easel.Unfaulted .quiet (Stroke.ops overlapping) := unfaulted_of_next (by decide +kernel)
  have htwice : easel.Unfaulted .quiet [.exec 0xD015, .exec 0xD015] := unfaulted_of_next (by decide +kernel)
  have hperm := List.reverse_perm overlapping
  obtain ⟨hstrokes, hsingle⟩ := strokes_commute .quiet easel
  obtain ⟨hsame, hblank⟩ := hstrokes overlapping overlapping.reverse hplain hclean hperm
  refine ⟨hplain, hclean, hperm, hsame, hblank, by decide, by decide, by decide, htwice, ?_⟩
  refine (hsingle 0xD015 (by decide) (by decide) (by decide) htwice).mpr ⟨0, 2, ?_, ?_⟩ <;> decide +kernel

end Core

end ChipEight
