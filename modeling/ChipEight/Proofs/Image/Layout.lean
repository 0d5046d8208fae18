import ChipEight.Image
import Mathlib.Data.List.Basic

/-!
# The layout of an image

`eq_encode_iff` : bytes of the right number are the image of a machine iff they begin with the signature and the version
and the machine is the one that they lay out.  Encoding appends nine parts, decoding looks each of them up at an offset;
part by part the two say the same (`block_eq_iff`, `byte_eq_iff`, `word_eq_iff`, `words_eq_iff`).
-/

namespace ChipEight.Image

variable {bytes : List UInt8} {k n : Nat}

theorem eq_append_iff {α : Type} {a b l : List α} : l = a ++ b ↔ l.take a.length = a ∧ l.drop a.length = b := by
  constructor
  · rintro rfl
    exact ⟨List.take_left, List.drop_left⟩
  · rintro ⟨ha, hb⟩
    have := List.take_append_drop a.length l
    rw [ha, hb] at this
    exact this.symm

/-! ### The parts -/

theorem block_eq_iff (h : k + n ≤ bytes.length) (v : Bytes n) :
    block bytes k n h = v ↔ (bytes.drop k).take n = v.toList := by
  rw [← Vector.toList_inj]
  simp [block]

theorem byte_eq_iff (h : k < bytes.length) (b : UInt8) : byte bytes k h = b ↔ (bytes.drop k).take 1 = [b] := by
  rw [List.drop_eq_getElem_cons h]
  simp only [byte, List.take_succ_cons, List.take_zero, List.cons.injEq, and_true]

theorem wordOf_eq_iff (lo hi : UInt8) (w : UInt16) :
    wordOf lo hi = w ↔ lo = w.toUInt8 ∧ hi = (w / 256).toUInt8 := by
  simp only [wordOf, ← UInt16.toNat_inj, ← UInt8.toNat_inj]
  have hlo := lo.toNat_lt
  have hhi := hi.toNat_lt
  have hw := w.toNat_lt
  simp
  omega

theorem word_eq_iff (h : k + 1 < bytes.length) (w : UInt16) :
    word bytes k h = w ↔ (bytes.drop k).take 2 = wordBytes w := by
  rw [List.drop_eq_getElem_cons (by omega), List.drop_eq_getElem_cons h]
  simp only [word, byte, wordOf_eq_iff, wordBytes, List.take_succ_cons, List.take_zero, List.cons.injEq, and_true]

@[simp] theorem length_wordBytes (w : UInt16) : (wordBytes w).length = 2 := rfl

theorem length_flatMap_wordBytes (ws : List UInt16) : (ws.flatMap wordBytes).length = 2 * ws.length := by
  simp [List.length_flatMap, List.map_const', Nat.mul_comm]

theorem take_words_eq_iff (w : UInt16) (ws : List UInt16) :
    (bytes.drop k).take (2 * (ws.length + 1)) = (w :: ws).flatMap wordBytes ↔
      (bytes.drop k).take 2 = wordBytes w ∧ (bytes.drop (k + 2)).take (2 * ws.length) = ws.flatMap wordBytes := by
  rw [List.flatMap_cons, eq_append_iff, List.take_take, List.drop_take, List.drop_drop]
  have h₁ : min (wordBytes w).length (2 * (ws.length + 1)) = 2 := by
    rw [length_wordBytes]
    omega
  have h₂ : 2 * (ws.length + 1) - (wordBytes w).length = 2 * ws.length := by
    rw [length_wordBytes]
    omega
  rw [h₁, h₂, length_wordBytes]

theorem forall_word_eq_iff (ws : List UInt16) (h : k + 2 * ws.length ≤ bytes.length) :
    (∀ (j : Nat) (hj : j < ws.length), word bytes (k + 2 * j) (by omega) = ws[j]) ↔
      (bytes.drop k).take (2 * ws.length) = ws.flatMap wordBytes := by
  induction ws generalizing k with
  | nil => simp
  | cons w ws ih =>
    simp only [List.length_cons] at h
    refine Iff.trans ?_ (take_words_eq_iff w ws).symm
    rw [← ih (k := k + 2) (by omega), ← word_eq_iff (by omega)]
    have hk : ∀ j, k + 2 * (j + 1) = k + 2 + 2 * j := fun j => by omega
    constructor
    · intro hall
      refine ⟨hall 0 (by simp), fun j hj => ?_⟩
      have := hall (j + 1) (by simpa using hj)
      simp only [hk] at this
      exact this
    · rintro ⟨h₀, hall⟩ j hj
      cases j with
      | zero => exact h₀
      | succ j => simpa only [hk, List.getElem_cons_succ] using hall j (by simpa using hj)

theorem words_eq_iff (h : k + 2 * n ≤ bytes.length) (v : Vector UInt16 n) :
    Vector.ofFn (fun j : Fin n => word bytes (k + 2 * j.val) (by omega)) = v ↔
      (bytes.drop k).take (2 * n) = v.toList.flatMap wordBytes := by
  have hlen : v.toList.length = n := v.length_toList
  have hroom : k + 2 * v.toList.length ≤ bytes.length := by omega
  have hall := forall_word_eq_iff v.toList hroom
  simp only [hlen] at hall
  rw [← hall, Vector.ext_iff]
  simp

/-! ### The whole -/

theorem encode_eq (m : Machine) : encode m = signature ++ ([version] ++ (m.memory.toList ++ (wordBytes m.pc ++
    (m.v.toList ++ (wordBytes m.i ++ (m.stack.toList.flatMap wordBytes ++ ([m.sp] ++ ([m.delay] ++
      ([m.sound] ++ m.screen.toList))))))))) := by
  simp [encode]

theorem layout_eq_iff (h : bytes.length = 6204) (m : Machine) :
    layout bytes h = m ↔
      (bytes.drop 5).take 4096 = m.memory.toList ∧ (bytes.drop 4101).take 2 = wordBytes m.pc ∧
        (bytes.drop 4103).take 16 = m.v.toList ∧ (bytes.drop 4119).take 2 = wordBytes m.i ∧
        (bytes.drop 4121).take (2 * 16) = m.stack.toList.flatMap wordBytes ∧
        (bytes.drop 4153).take 1 = [m.sp] ∧ (bytes.drop 4154).take 1 = [m.delay] ∧
        (bytes.drop 4155).take 1 = [m.sound] ∧ (bytes.drop 4156).take 2048 = m.screen.toList := by
  obtain ⟨⟨v, i, pc, sp, stack, memory⟩, ⟨delay, sound⟩, screen⟩ := m
  have hroom : 4121 + 2 * 16 ≤ bytes.length := by omega
  have hwords := words_eq_iff hroom stack
  simp only [layout, Machine.mk.injEq, Processor.mk.injEq, Timers.mk.injEq, block_eq_iff, byte_eq_iff, word_eq_iff,
    hwords]
  constructor
  · rintro ⟨⟨hv, hi, hpc, hsp, hstack, hmemory⟩, ⟨hdelay, hsound⟩, hscreen⟩
    exact ⟨hmemory, hpc, hv, hi, hstack, hsp, hdelay, hsound, hscreen⟩
  · rintro ⟨hmemory, hpc, hv, hi, hstack, hsp, hdelay, hsound, hscreen⟩
    exact ⟨⟨hv, hi, hpc, hsp, hstack, hmemory⟩, ⟨hdelay, hsound⟩, hscreen⟩

/-- **Encoding and decoding say the same of bytes of the right number.** -/
theorem eq_encode_iff (h : bytes.length = 6204) (m : Machine) :
    bytes = encode m ↔ bytes.take 4 = signature ∧ byte bytes 4 (by omega) = version ∧ layout bytes h = m := by
  rw [layout_eq_iff h, byte_eq_iff, encode_eq]
  have hrest : (bytes.drop 4156).take 2048 = bytes.drop 4156 := List.take_of_length_le (by simp [h])
  simp only [eq_append_iff, List.drop_drop, hrest, length_wordBytes, length_flatMap_wordBytes, Vector.length_toList,
    List.length_singleton, show signature.length = 4 from rfl, Memory.size, Nat.reduceAdd, Nat.reduceMul]

end ChipEight.Image
