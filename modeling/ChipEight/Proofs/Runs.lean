import ChipEight.Step

/-!
# Step after step

* `Session.after` : the session after so many steps, whatever they end with.
* `Session.GoesOn` : none of the first steps ends the run; where a key is awaited the step is made again.
* `Session.Reaches` : what repeating steps comes to, before or with the fault that ends it.
-/

namespace ChipEight

def Surroundings.quiet : Surroundings := ⟨fun _ => none, fun _ => 0⟩

namespace Session

variable (o : Surroundings) (s : Session)

/-- The session after `n` steps, whatever they end with. -/
def after : Nat → Session
  | 0 => s
  | n + 1 => ((after n).step o).2

/-- How step number `n` ends, the first one being number `0`. -/
def ending (n : Nat) : Outcome := ((s.after o n).step o).1

/-- None of the first `n` steps ends the run. -/
def GoesOn (n : Nat) : Prop := ∀ k < n, s.ending o k = .next ∨ s.ending o k = .awaitingKey

/-- What repeating steps comes to: a session that no fault has ended yet, or the one that this fault has left. -/
inductive Reaches : Option Fault → Session → Prop
  | going {k : Nat} (h : s.GoesOn o k) : Reaches none (s.after o k)
  | faulted {k : Nat} {f : Fault} (h : s.GoesOn o k) (hf : s.ending o k = .fault f) :
    Reaches (some f) (s.after o (k + 1))

theorem after_succ (n : Nat) : s.after o (n + 1) = ((s.after o n).step o).2 := rfl

theorem after_add (k n : Nat) : s.after o (k + n) = (s.after o k).after o n := by
  induction n with
  | zero => rfl
  | succ n ih => rw [← Nat.add_assoc, after_succ, ih, after_succ]

theorem after_step (n : Nat) : (s.step o).2.after o n = s.after o (n + 1) := by
  rw [Nat.add_comm, after_add]
  rfl

theorem ending_step (n : Nat) : (s.step o).2.ending o n = s.ending o (n + 1) := by
  unfold ending
  rw [after_step]

variable {o s} {n : Nat}

theorem goesOn_zero : s.GoesOn o 0 := fun _ hk => absurd hk (Nat.not_lt_zero _)

theorem GoesOn.succ (h : s.GoesOn o n) (hn : s.ending o n = .next ∨ s.ending o n = .awaitingKey) :
    s.GoesOn o (n + 1) := by
  intro k hk
  rcases Nat.lt_succ_iff_lt_or_eq.mp hk with hk | rfl
  · exact h k hk
  · exact hn

theorem GoesOn.tail (h : s.GoesOn o (n + 1)) : (s.step o).2.GoesOn o n := by
  intro k hk
  rw [ending_step]
  exact h (k + 1) (Nat.succ_lt_succ hk)

/-- A fault comes after all steps that do not end the run. -/
theorem GoesOn.le_of_fault (h : s.GoesOn o n) {k : Nat} {f : Fault} (hf : s.ending o k = .fault f) : n ≤ k := by
  rcases Nat.lt_or_ge k n with hk | hk
  · rcases h k hk with hnext | hkey
    · rw [hnext] at hf
      cases hf
    · rw [hkey] at hf
      cases hf
  · exact hk

namespace Reaches

variable {t t' : Session} {f f' : Fault}

theorem start : s.Reaches o none s := .going (k := 0) goesOn_zero

theorem step (h : s.Reaches o none t) (hstep : (t.step o).1 = .next ∨ (t.step o).1 = .awaitingKey) :
    s.Reaches o none (t.step o).2 := by
  cases h with
  | going h => exact .going (h.succ hstep)

theorem step_fault (h : s.Reaches o none t) (hstep : (t.step o).1 = .fault f) : s.Reaches o (some f) (t.step o).2 := by
  cases h with
  | going h => exact .faulted h hstep

theorem fault_unique (h : s.Reaches o (some f) t) (h' : s.Reaches o (some f') t') : f' = f ∧ t' = t := by
  cases h with
  | @faulted k f hk hf =>
    cases h' with
    | @faulted k' f' hk' hf' =>
      obtain rfl : k' = k := Nat.le_antisymm (hk'.le_of_fault hf) (hk.le_of_fault hf')
      rw [hf] at hf'
      cases hf'
      exact ⟨rfl, rfl⟩

end Reaches

end Session

end ChipEight
