import Mathlib.Data.List.Induction
import Mathlib.Order.Bounds.Basic
import Mathlib.Order.Fin.Basic
import ChipEight.Panel

/-!
# Held keys

The word of the keypad is a set of keys, and the key reported is the least of them.

* `Keypad.held_press`, `Keypad.held_release` : what one key does to the set.
* `Keypad.lowest?_eq_some_iff` : the key reported is the least one that is held.
* `Panel.held_after` : after any events, in any order, a key is held iff the last thing done to it was to press it.
* `Panel.least_held` : a panel reports the least of these keys, whatever the tone does, and a machine gets it as it is.
-/

namespace ChipEight

namespace Keypad

variable (p : Keypad) (k j : Digit)

theorem getLsbD_bit : ∀ k j : Digit, (bit k).toBitVec.getLsbD j = (k == j) := by decide

@[simp] theorem toBitVec_mask_press : (p.press k).mask.toBitVec = p.mask.toBitVec ||| (bit k).toBitVec := rfl

@[simp] theorem toBitVec_mask_release : (p.release k).mask.toBitVec = p.mask.toBitVec &&& ~~~(bit k).toBitVec := rfl

theorem eq_zero_iff (m : UInt16) : m = 0 ↔ ∀ k : Digit, m.toBitVec.getLsbD k = false := by
  refine ⟨fun hzero k => by simp [hzero], fun hclear => ?_⟩
  apply UInt16.toBitVec_inj.mp
  apply BitVec.eq_of_getLsbD_eq
  intro i hi
  rw [hclear ⟨i, hi⟩]
  simp

theorem held_eq : p.held k = p.mask.toBitVec.getLsbD k := by
  have hbits : ∀ j : Digit, (p.mask &&& bit k).toBitVec.getLsbD j = (p.mask.toBitVec.getLsbD j && k == j) := fun j => by
    rw [UInt16.toBitVec_and, BitVec.getLsbD_and, getLsbD_bit]
  rw [Bool.eq_iff_iff, held, bne_iff_ne, Ne, eq_zero_iff]
  simp only [hbits, not_forall, Bool.not_eq_false, Bool.and_eq_true, beq_iff_eq, exists_eq_right']

theorem held_press : (p.press k).held j = true ↔ k = j ∨ p.held j = true := by
  rw [held_eq, held_eq, toBitVec_mask_press, BitVec.getLsbD_or, getLsbD_bit, Bool.or_eq_true, beq_iff_eq, or_comm]

theorem held_release : (p.release k).held j = true ↔ k ≠ j ∧ p.held j = true := by
  rw [held_eq, held_eq, toBitVec_mask_release, BitVec.getLsbD_and, BitVec.getLsbD_not, getLsbD_bit, Bool.and_eq_true,
    and_comm]
  simp

@[simp] theorem held_empty : ({} : Keypad).held k = false := by simp [held]

theorem lowest?_eq_none_iff : p.lowest? = none ↔ ∀ k, p.held k = false := by
  simp only [held_eq, ← eq_zero_iff]
  by_cases hzero : p.mask = 0 <;> simp [lowest?, hzero]

/-- The key reported is held, and no key below it is. -/
theorem lowest?_eq_some_iff : p.lowest? = some k ↔ IsLeast {k | p.held k} k := by
  by_cases hzero : p.mask = 0
  · have hnone : p.lowest? = none := by simp [lowest?, hzero]
    have hfree := p.lowest?_eq_none_iff.mp hnone
    simp [hnone, IsLeast, hfree]
  · have hbits : p.mask.toBitVec ≠ 0#16 := fun h => hzero (UInt16.toBitVec_inj.mp h)
    have hleast : IsLeast {k | p.held k} ⟨p.mask.toBitVec.ctz.toNat, ctz_lt hzero⟩ := by
      refine ⟨?_, fun j hj => ?_⟩
      · rw [Set.mem_ofPred_eq, held_eq]
        exact BitVec.getLsbD_true_ctz_of_ne_zero hbits
      · rw [Set.mem_ofPred_eq, held_eq] at hj
        by_contra hlt
        rw [BitVec.getLsbD_false_of_lt_ctz (by simpa [Fin.le_def] using hlt)] at hj
        exact absurd hj (by decide)
    rw [lowest?, dif_neg hzero, Option.some_inj]
    exact ⟨fun h => h ▸ hleast, fun h => hleast.unique h⟩

end Keypad

namespace Panel

namespace Event

def key? : Event → Option Digit
  | .press k | .release k => some k
  | .startTone | .stopTone => none

/-- The last thing that these events do to a key is to press it. -/
def Held (es : List Event) (k : Digit) : Prop := (es.filter (·.key? = some k)).getLast? = some (.press k)

variable (es : List Event) (e : Event) (k : Digit)

@[simp] theorem not_held_nil : ¬ Held [] k := by simp [Held]

theorem held_concat : Held (es ++ [e]) k ↔ e = .press k ∨ e ≠ .release k ∧ Held es k := by
  simp only [Held, List.filter_append]
  cases e with
  | press j => by_cases h : j = k <;> simp [key?, h]
  | release j => by_cases h : j = k <;> simp [key?, h]
  | startTone => simp [key?]
  | stopTone => simp [key?]

end Event

open Event

variable (es : List Event) (e : Event) (p : Panel) (k : Digit)

theorem after_concat : after (es ++ [e]) = (after es).meet e := by simp [after]

theorem held_meet : (p.meet e).keypad.held k = true ↔ e = .press k ∨ e ≠ .release k ∧ p.keypad.held k = true := by
  cases e with
  | press j => simp [meet, Keypad.held_press]
  | release j => simp [meet, Keypad.held_release]
  | startTone => simp [meet]
  | stopTone => simp [meet]

/-- After any events, a key is held iff the last thing done to it was to press it. -/
theorem held_after : (after es).keypad.held k = true ↔ Held es k := by
  induction es using List.reverseRecOn with
  | nil => simp [after]
  | append_singleton es e ih => rw [after_concat, held_meet, held_concat, ih]

theorem key?_eq_some_iff (b : UInt8) : p.key? = some b ↔ ∃ k : Digit, p.keypad.lowest? = some k ∧ b.toNat = k.val := by
  have hbyte : ∀ k : Digit, UInt8.ofNat k.val = b ↔ b.toNat = k.val := fun k => by
    rw [← UInt8.toNat_inj, UInt8.toNat_ofNat']
    omega
  simp [key?, hbyte]

theorem key?_eq_none_iff : p.key? = none ↔ p.keypad.lowest? = none := by simp [key?]

/-- Every key that a panel reports is on the keypad, so a machine that asks gets what the panel reports. -/
theorem filter_key? : p.key?.filter (· < 16) = p.key? := by
  cases hkey : p.key? with
  | none => rfl
  | some b =>
    obtain ⟨k, -, hk⟩ := (p.key?_eq_some_iff b).mp hkey
    have hlt : b < 16 := by
      rw [UInt8.lt_iff_toNat_lt, hk]
      exact k.isLt
    rw [Option.filter_some, if_pos (decide_eq_true hlt)]

/-- **The keypad is a set of keys.**  After any keys have been pressed and released, in any order and however often,
the panel reports none iff no key was last pressed, and else the least of those that were.  The tone never changes
what is reported, and a machine that asks a panel gets its answer as it is. -/
theorem least_held :
    ((after es).key? = none ↔ {k | Held es k} = ∅) ∧
    (∀ b : UInt8, (after es).key? = some b ↔ ∃ k, IsLeast {k | Held es k} k ∧ b.toNat = k.val) ∧
    (after (es ++ [.startTone])).key? = (after es).key? ∧ (after (es ++ [.stopTone])).key? = (after es).key? ∧
    ∀ (history : Nat → List Event) (random : Nat → UInt8) (t : Tally),
      (surroundings history random).heldKey t = (after (history t.asked)).key? := by
  have hheld : {k | (after es).keypad.held k} = {k | Held es k} := Set.ext fun k => held_after es k
  refine ⟨?_, fun b => ?_, ?_, ?_, fun history random t => filter_key? _⟩
  · rw [key?_eq_none_iff, Keypad.lowest?_eq_none_iff, ← hheld, Set.eq_empty_iff_forall_notMem]
    simp
  · simp only [key?_eq_some_iff, Keypad.lowest?_eq_some_iff, hheld]
  · rw [after_concat]
    rfl
  · rw [after_concat]
    rfl

end Panel

end ChipEight
