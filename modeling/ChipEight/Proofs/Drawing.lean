import ChipEight.Screen
import Mathlib.Data.List.Nodup
import Mathlib.Data.List.Range

/-!
# Drawing cell by cell

The cells under a sprite are all different (`nodup_cells`), so a sprite may as well be drawn one cell after the other,
looking at each cell only when it is turned over (`foldl_turn`).

* `mem_rowCells`, `mem_cells`, `le_row_of_mem_cells` : which cells lie under a row and under a sprite, and in which
  rows.
* `get_flipAll` : what a cell is when others, or it too, were turned over.
* `flipAll_perm`, `flipAll_flipAll` : the order of the cells does not matter, and twice is as good as not at all.
* `get_flipAll_le` : drawing on a screen of dark and lit cells leaves such a screen.
-/

namespace ChipEight

namespace Screen

theorem cell?_eq_some_iff {a b : Nat} {c : Cell} :
    cell? a b = some c ↔ a < width ∧ b < height ∧ c.val = b * width + a := by
  unfold cell?
  split
  · next h =>
    simp only [Option.some.injEq, Fin.ext_iff]
    exact ⟨fun hc => ⟨h.1, h.2, hc.symm⟩, fun hc => hc.2.2.symm⟩
  · next h =>
    constructor
    · intro hc
      cases hc
    · rintro ⟨ha, hb, -⟩
      exact absurd ⟨ha, hb⟩ h

theorem cell?_of_width_le {a : Nat} (b : Nat) (h : width ≤ a) : cell? a b = none := by
  unfold cell?
  exact dif_neg fun hc => Nat.not_lt.mpr h hc.1

/-! ### One cell after the other -/

/-- Turns a cell over and notes whether it was lit. -/
def turn (r : Screen × Bool) (c : Cell) : Screen × Bool := (r.1.flip c, r.2 || r.1.lit c)

theorem lit_flip_of_ne (s : Screen) {c d : Cell} (h : c ≠ d) : (s.flip c).lit d = s.lit d := by
  unfold lit
  rw [get_flip, if_neg h]

theorem foldl_turn {cs : List Cell} (h : cs.Nodup) (s : Screen) (hit : Bool) :
    cs.foldl turn (s, hit) = (s.flipAll cs, hit || cs.any s.lit) := by
  induction cs generalizing s hit with
  | nil => simp [flipAll]
  | cons c cs ih =>
    obtain ⟨hc, hcs⟩ := List.nodup_cons.mp h
    have hany : cs.any (s.flip c).lit = cs.any s.lit := by
      rw [Bool.eq_iff_iff, List.any_eq_true, List.any_eq_true]
      refine exists_congr fun d => and_congr_right fun hd => ?_
      have hne : c ≠ d := fun e => hc (by rwa [e])
      rw [lit_flip_of_ne s hne]
    rw [List.foldl_cons, turn, ih hcs, hany, List.any_cons, Bool.or_assoc]
    rfl

/-! ### Any order -/

theorem ext_get {s s' : Screen} (h : ∀ c : Cell, s.get c = s'.get c) : s = s' :=
  Vector.ext fun k hk => h ⟨k, hk⟩

theorem get_flip_eq (s : Screen) (c d : Cell) : (s.flip c).get d = s.get d ^^^ if c = d then 1 else 0 := by
  rw [get_flip]
  split
  · next h => rw [h]
  · exact UInt8.xor_zero.symm

theorem flip_comm (s : Screen) (c d : Cell) : (s.flip c).flip d = (s.flip d).flip c := by
  refine ext_get fun e => ?_
  rw [get_flip_eq, get_flip_eq, get_flip_eq, get_flip_eq, UInt8.xor_assoc, UInt8.xor_assoc,
    UInt8.xor_comm (if c = e then 1 else 0)]

theorem flip_flip (s : Screen) (c : Cell) : (s.flip c).flip c = s := by
  refine ext_get fun e => ?_
  rw [get_flip_eq, get_flip_eq, UInt8.xor_assoc, UInt8.xor_self, UInt8.xor_zero]

theorem flipAll_append (s : Screen) (cs ds : List Cell) : s.flipAll (cs ++ ds) = (s.flipAll cs).flipAll ds :=
  List.foldl_append ..

theorem flipAll_perm {cs ds : List Cell} (h : cs.Perm ds) (s : Screen) : s.flipAll cs = s.flipAll ds :=
  h.foldl_eq' (fun c _ d _ s => flip_comm s c d) s

theorem flipAll_flipAll (s : Screen) (cs : List Cell) : (s.flipAll cs).flipAll cs = s := by
  induction cs generalizing s with
  | nil => rfl
  | cons c cs ih =>
    have hlast : (cs ++ c :: cs).Perm (c :: (cs ++ cs)) := List.perm_middle
    calc (s.flipAll (c :: cs)).flipAll (c :: cs)
        = (s.flip c).flipAll (cs ++ c :: cs) := (flipAll_append (s.flip c) cs (c :: cs)).symm
      _ = (s.flip c).flipAll (c :: (cs ++ cs)) := flipAll_perm hlast (s.flip c)
      _ = ((s.flip c).flip c).flipAll (cs ++ cs) := rfl
      _ = s.flipAll (cs ++ cs) := by rw [flip_flip]
      _ = s := (flipAll_append s cs cs).trans (ih s)

theorem get_flipAll {cs : List Cell} (h : cs.Nodup) (s : Screen) (d : Cell) :
    (s.flipAll cs).get d = s.get d ^^^ if cs.contains d then 1 else 0 := by
  induction cs generalizing s with
  | nil => exact UInt8.xor_zero.symm
  | cons c cs ih =>
    obtain ⟨hc, hcs⟩ := List.nodup_cons.mp h
    rw [flipAll, List.foldl_cons]
    refine (ih hcs (s.flip c)).trans ?_
    rw [get_flip_eq, List.contains_cons]
    by_cases hd : c = d
    · subst hd
      have hrest : cs.contains c = false := by simpa using hc
      rw [if_pos rfl, hrest, beq_self_eq_true, Bool.true_or, if_pos rfl, if_neg Bool.false_ne_true, UInt8.xor_zero]
    · have hother : (d == c) = false := beq_false_of_ne (Ne.symm hd)
      rw [if_neg hd, hother, Bool.false_or, UInt8.xor_zero]

/-! ### Dark and lit cells -/

/-- Every cell of a screen is dark or lit. -/
def Plain (s : Screen) : Prop := ∀ c : Cell, s.get c ≤ 1

theorem le_one_iff {b : UInt8} : b ≤ 1 ↔ b = 0 ∨ b = 1 := by
  simp only [UInt8.le_iff_toNat_le, ← UInt8.toNat_inj, UInt8.reduceToNat]
  omega

theorem get_flip_le {s : Screen} (h : ∀ c : Cell, s.get c ≤ 1) (c d : Cell) : (s.flip c).get d ≤ 1 := by
  rw [get_flip]
  split
  · rcases le_one_iff.mp (h c) with hc | hc <;> simp [hc]
  · exact h d

theorem get_flipAll_le {s : Screen} (h : ∀ c : Cell, s.get c ≤ 1) (cs : List Cell) (d : Cell) :
    (s.flipAll cs).get d ≤ 1 := by
  induction cs generalizing s with
  | nil => exact h d
  | cons c cs ih => exact ih (get_flip_le h c)

theorem get_blank_le (c : Cell) : blank.get c ≤ 1 := by
  have hzero : blank.get c = 0 := Vector.getElem_replicate c.isLt
  exact le_one_iff.mpr (.inl hzero)

end Screen

namespace Sprite

open Screen

theorem mem_rowCells {ox y : Nat} {row : UInt8} {c : Cell} :
    c ∈ rowCells ox y row ↔ ∃ k < 8, bit row k = true ∧ cell? (ox + k) y = some c := by
  simp only [rowCells, List.mem_filterMap, List.mem_range]
  refine exists_congr fun k => and_congr_right fun _ => ?_
  split
  · next h => simp [h]
  · next h => simp [h]

theorem row_of_mem_rowCells {ox y : Nat} {row : UInt8} {c : Cell} (h : c ∈ rowCells ox y row) : c.val / width = y := by
  obtain ⟨k, -, -, hc⟩ := mem_rowCells.mp h
  obtain ⟨ha, -, hval⟩ := cell?_eq_some_iff.mp hc
  simp only [width] at ha hval ⊢
  omega

/-- The rows of a sprite lie one below the other. -/
theorem mem_cells {ox oy : Nat} {rows : List UInt8} {c : Cell} :
    c ∈ cells ox oy rows ↔ ∃ j row, rows[j]? = some row ∧ c ∈ rowCells ox (oy + j) row := by
  induction rows generalizing oy with
  | nil => simp [cells]
  | cons row rows ih =>
    rw [cells, List.mem_append, ih]
    constructor
    · rintro (h | ⟨j, row', hrow, h⟩)
      · exact ⟨0, row, rfl, h⟩
      · refine ⟨j + 1, row', hrow, ?_⟩
        rwa [Nat.add_right_comm, Nat.add_assoc] at h
    · rintro ⟨j, row', hrow, h⟩
      cases j with
      | zero =>
        cases hrow
        exact .inl h
      | succ j =>
        refine .inr ⟨j, row', hrow, ?_⟩
        rwa [Nat.add_assoc, Nat.add_comm 1]

theorem le_row_of_mem_cells {ox oy : Nat} {rows : List UInt8} {c : Cell} (h : c ∈ cells ox oy rows) :
    oy ≤ c.val / width := by
  induction rows generalizing oy with
  | nil => cases h
  | cons row rows ih =>
    rcases List.mem_append.mp h with h | h
    · exact (row_of_mem_rowCells h).ge
    · exact (Nat.le_succ oy).trans (ih h)

theorem nodup_rowCells (ox y : Nat) (row : UInt8) : (rowCells ox y row).Nodup := by
  refine List.Nodup.filterMap (fun k k' c hc hc' => ?_) List.nodup_range
  have hval : ∀ j, c ∈ (if bit row j then cell? (ox + j) y else none) → c.val = y * width + (ox + j) := by
    intro j hj
    split at hj
    · exact (cell?_eq_some_iff.mp hj).2.2
    · cases hj
  have := hval k hc
  have := hval k' hc'
  omega

theorem nodup_cells (ox oy : Nat) (rows : List UInt8) : (cells ox oy rows).Nodup := by
  induction rows generalizing oy with
  | nil => exact List.nodup_nil
  | cons row rows ih =>
    refine List.Nodup.append (nodup_rowCells ox oy row) (ih (oy + 1)) fun c h h' => ?_
    have := row_of_mem_rowCells h
    have := le_row_of_mem_cells h'
    omega

/-- Nothing of a sprite is seen below the lower edge. -/
theorem cells_of_height_le (ox : Nat) {oy : Nat} (h : height ≤ oy) (rows : List UInt8) : cells ox oy rows = [] := by
  refine List.eq_nil_iff_forall_not_mem.mpr fun c hc => ?_
  have hrow := le_row_of_mem_cells hc
  have hc := c.isLt
  simp only [size, width, height] at *
  omega

end Sprite

theorem Screen.draw_eq (s : Screen) (ox oy : Nat) (rows : List UInt8) :
    s.draw ox oy rows = (Sprite.cells ox oy rows).foldl turn (s, false) := by
  rw [foldl_turn (Sprite.nodup_cells ox oy rows), Bool.false_or]
  rfl

end ChipEight
