import ChipEight.Checked
import ChipEight.Proofs.Drawing

/-!
# Textures

The picture of a screen, byte by byte.

* `Checked.texture_eq` : the picture of a screen of dark and lit cells is made without a hazard.
* `Screen.getElem?_texture` : its bytes; `Screen.texture_injective` : no two screens have the same picture.
-/

namespace ChipEight

namespace Screen

variable {s s' : Screen}

theorem length_texture (s : Screen) : s.texture.length = 3 * size := by
  simp [texture, Nat.mul_comm]

/-- Three bytes for each element of a list. -/
theorem getElem?_flatMap_replicate (f : UInt8 → UInt8) (l : List UInt8) (j : Nat) :
    (l.flatMap fun a => List.replicate 3 (f a))[j]? = l[j / 3]?.map f := by
  induction l generalizing j with
  | nil => simp
  | cons a l ih =>
    rw [List.flatMap_cons]
    rcases Nat.lt_or_ge j 3 with hlt | hge
    · have hzero : j / 3 = 0 := Nat.div_eq_of_lt hlt
      rw [List.getElem?_append_left (by simpa using hlt), List.getElem?_replicate, if_pos hlt, hzero]
      rfl
    · obtain ⟨i, rfl⟩ := Nat.exists_eq_add_of_le' hge
      have hnext : (i + 3) / 3 = i / 3 + 1 := Nat.add_div_right i (by decide)
      rw [List.getElem?_append_right (by simp), List.length_replicate, Nat.add_sub_cancel, ih, hnext,
        List.getElem?_cons_succ]

theorem getElem?_texture (s : Screen) (j : Nat) : s.texture[j]? = s[j / 3]?.map (· * 255) := by
  rw [texture, getElem?_flatMap_replicate, Vector.getElem?_toList]

theorem mul_255_injective {a b : UInt8} (h : a * 255 = b * 255) : a = b := by
  have ha := a.toNat_lt
  have hb := b.toNat_lt
  have hfull : (255 : UInt8).toNat = 255 := rfl
  rw [← UInt8.toNat_inj, UInt8.toNat_mul, UInt8.toNat_mul, hfull] at h
  rw [← UInt8.toNat_inj]
  omega

theorem texture_injective (h : s.texture = s'.texture) : s = s' := by
  refine Vector.ext fun c hc => ?_
  have hbyte : s.texture[3 * c]? = s'.texture[3 * c]? := by rw [h]
  have hcell : 3 * c / 3 = c := Nat.mul_div_cancel_left c (by decide)
  rw [getElem?_texture, getElem?_texture, hcell, Vector.getElem?_eq_getElem hc, Vector.getElem?_eq_getElem hc] at hbyte
  exact mul_255_injective (Option.some_inj.mp hbyte)

/-! ### Dark and lit cells -/

/-- A lit cell, taken 255 times, fills a byte and does not pass it. -/
theorem toNat_mul_255 {a : UInt8} (h : a ≤ 1) : a.toNat * 255 < 256 ∧ (a * 255).toNat = 255 * a.toNat := by
  rcases le_one_iff.mp h with rfl | rfl <;> decide

theorem Plain.le_of_mem (h : s.Plain) {a : UInt8} (ha : a ∈ s.toList) : a ≤ 1 := by
  obtain ⟨c, hc, rfl⟩ := List.getElem_of_mem ha
  rw [Vector.length_toList] at hc
  exact h ⟨c, hc⟩

theorem Plain.toNat_texture (h : s.Plain) (j : Nat) :
    s.texture[j]?.map UInt8.toNat = s[j / 3]?.map fun a => 255 * a.toNat := by
  rw [getElem?_texture, Option.map_map]
  refine Option.map_congr fun a ha => ?_
  rw [← Vector.getElem?_toList] at ha
  exact (toNat_mul_255 (h.le_of_mem (List.mem_of_getElem? ha))).2

end Screen

namespace Checked

theorem mapM_eq {α β : Type} {f : α → Risky β} {g : α → β} {l : List α} (h : ∀ a ∈ l, f a = .ok (g a)) :
    l.mapM f = .ok (l.map g) := by
  induction l with
  | nil => rfl
  | cons a l ih =>
    rw [List.mapM_cons, h a List.mem_cons_self, ih fun b hb => h b (List.mem_cons_of_mem a hb)]
    rfl

/-- No product passes a byte. -/
theorem texture_eq {s : Screen} (h : s.Plain) : texture s = .ok s.texture := by
  have htimes : ∀ a ∈ s.toList.flatMap (List.replicate 3), timesByte a 255 = .ok (a * 255) := by
    intro a ha
    obtain ⟨b, hb, hab⟩ := List.mem_flatMap.mp ha
    obtain rfl := List.eq_of_mem_replicate hab
    exact if_pos (Screen.toNat_mul_255 (h.le_of_mem hb)).1
  rw [texture, mapM_eq htimes, Screen.texture, List.map_flatMap]
  simp only [List.map_replicate]

end Checked

end ChipEight
