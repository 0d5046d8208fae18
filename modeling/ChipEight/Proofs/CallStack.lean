import ChipEight.Proofs.Footprint
import ChipEight.Proofs.Runs

/-!
# The call stack

The return addresses in use are a stack of at most sixteen (`Processor.calls`).

* `Session.HandlesCalls` : what a step does to them; `Session.handlesCalls` : every step does.
* `Session.returned_or_kept` : the addresses below the one that a call pushed are kept until it is popped.
* `Session.call_stack` : whatever is called in between, a call comes back to where it was made, with the stack that it
  found.
-/

namespace ChipEight

theorem Processor.length_calls {p : Processor} (h : p.sp ≤ 16) : p.calls.length = p.sp.toNat := by
  have hle : p.sp.toNat ≤ 16 := h
  unfold calls
  rw [List.length_take, Vector.length_toList, Nat.min_eq_left hle]

namespace Session

variable {s : Session} (o : Surroundings)

/-! ### Call and return -/

theorem exec_call (a : UInt16) (h : s.sp.toNat < 16) :
    (s.exec o (.call a)).1 = .next ∧ (s.exec o (.call a)).2.calls = s.calls ++ [s.pc] ∧
      (s.exec o (.call a)).2.pc = a ∧ (s.exec o (.call a)).2.sp ≤ 16 := by
  have hsp : (s.sp + 1).toNat = s.sp.toNat + 1 := by
    simp only [UInt8.toNat_add, UInt8.reduceToNat]
    omega
  have hlen : s.sp.toNat < s.stack.toList.length := by rwa [Vector.length_toList]
  simp only [exec, dif_pos h, Processor.calls, true_and]
  refine ⟨?_, ?_⟩
  · rw [hsp, Vector.toList_set, List.take_add_one, List.take_set_of_le (Nat.le_refl _), List.getElem?_set_self hlen]
    rfl
  · rw [UInt8.le_iff_toNat_le, hsp]
    exact h

theorem exec_call_full (a : UInt16) (h : ¬ s.sp.toNat < 16) : (s.exec o (.call a)).2 = s := by
  simp only [exec, dif_neg h]

/-- A return takes the topmost address off the stack and goes there. -/
theorem exec_ret (h : s.sp ≤ 16) (hzero : s.sp ≠ 0) :
    (s.exec o .ret).1 = .next ∧ s.calls = (s.exec o .ret).2.calls ++ [(s.exec o .ret).2.pc] ∧
      (s.exec o .ret).2.sp ≤ 16 := by
  have htop := top_lt h hzero
  have hsp : s.sp.toNat = (s.sp - 1).toNat + 1 := by
    have hlt := s.sp.toNat_lt
    simp only [ne_eq, ← UInt8.toNat_inj, UInt8.toNat_sub, UInt8.reduceToNat] at *
    omega
  have hlen : (s.sp - 1).toNat < s.stack.toList.length := by rwa [Vector.length_toList]
  simp only [exec, if_neg hzero, Vector.getElem?_eq_getElem htop, Processor.calls, true_and]
  refine ⟨?_, ?_⟩
  · rw [hsp, List.take_add_one, List.getElem?_eq_getElem hlen]
    rfl
  · rw [UInt8.le_iff_toNat_le]
    exact Nat.le_of_lt htop

/-! ### One step -/

/-- A step handles the return addresses as a stack of sixteen. -/
structure HandlesCalls (s : Session) : Prop where
  depth_le : s.calls.length ≤ 16
  call : ∀ w, s.Fetches w → w.family = 0x2 → s.calls.length ≠ 16 →
    (s.step o).1 = .next ∧ (s.step o).2.calls = s.calls ++ [s.pc + 2] ∧ (s.step o).2.pc = w.addr
  overflow : ∀ w, s.Fetches w → w.family = 0x2 → s.calls.length = 16 →
    (s.step o).1 = .fault (.stackOverflow s.pc) ∧ (s.step o).2.calls = s.calls
  ret : ∀ w, s.Fetches w → w.family = 0x0 → w.kk = 0xEE → s.calls ≠ [] →
    (s.step o).1 = .next ∧ (s.step o).2.calls ++ [(s.step o).2.pc] = s.calls
  underflow : ∀ w, s.Fetches w → w.family = 0x0 → w.kk = 0xEE → s.calls = [] →
    (s.step o).1 = .fault (.stackUnderflow s.pc) ∧ (s.step o).2.calls = s.calls
  other : (∀ w, s.Fetches w → ¬ (w.family = 0x2 ∨ w.family = 0x0 ∧ w.kk = 0xEE)) → (s.step o).2.calls = s.calls

variable {o} {w : Word}

theorem step_call (hw : s.Fetches w) (hf : w.family = 0x2) (h : s.sp.toNat < 16) :
    (s.step o).1 = .next ∧ (s.step o).2.calls = s.calls ++ [s.pc + 2] ∧ (s.step o).2.pc = w.addr ∧
      (s.step o).2.sp ≤ 16 := by
  rw [step_of_fetches o hw, execWord_of_reads o _ (i := .call w.addr) ⟨hf, rfl⟩]
  exact exec_call (s := { s with pc := s.pc + 2 }) o w.addr h

theorem step_ret (hw : s.Fetches w) (hf : w.family = 0x0) (hkk : w.kk = 0xEE) (h : s.sp ≤ 16) (hzero : s.sp ≠ 0) :
    (s.step o).1 = .next ∧ s.calls = (s.step o).2.calls ++ [(s.step o).2.pc] ∧ (s.step o).2.sp ≤ 16 := by
  rw [step_of_fetches o hw, execWord_of_reads o _ (i := .ret) ⟨hf, hkk⟩]
  exact exec_ret (s := { s with pc := s.pc + 2 }) o h hzero

/-- A fault leaves the call stack alone. -/
theorem step_faulting {f : Fault} (h : s.Faulting f) :
    (s.step o).1 = .fault f ∧ (s.step o).2.calls = s.calls ∧ (s.step o).2.sp = s.sp := by
  have hends := step_endsBy o s
  rw [Machine.fault?_of_faulting h] at hends
  have hstep : s.step o = (.fault f, { s with toProcessor := s.fetched }) := hends
  rw [hstep]
  unfold Processor.fetched
  split <;> exact ⟨rfl, rfl, rfl⟩

theorem step_other (h : ∀ w, s.Fetches w → ¬ (w.family = 0x2 ∨ w.family = 0x0 ∧ w.kk = 0xEE)) :
    (s.step o).2.calls = s.calls ∧ (s.step o).2.sp = s.sp := by
  have hsame := s.same_step o (p := .callStack) h
  obtain ⟨hsp, hstack⟩ := Prod.ext_iff.mp hsame
  unfold Processor.calls
  exact ⟨congrArg₂ (fun (k : UInt8) (v : Vector UInt16 16) => v.toList.take k.toNat) hsp hstack, hsp⟩

theorem handlesCalls (o : Surroundings) (h : s.sp ≤ 16) : s.HandlesCalls o := by
  have hlen := Processor.length_calls (p := s.toProcessor) h
  have hle : s.sp.toNat ≤ 16 := h
  refine ⟨?_, fun w hw hf hroom => ?_, fun w hw hf hfull => ?_, fun w hw hf hkk hne => ?_, fun w hw hf hkk hnil => ?_,
    fun hother => (step_other hother).1⟩
  · rwa [hlen]
  · have hcall := step_call (o := o) hw hf (by omega)
    exact ⟨hcall.1, hcall.2.1, hcall.2.2.1⟩
  · have hsp : s.sp = 16 := UInt8.toNat_inj.mp (hlen.symm.trans hfull)
    have hfault := step_faulting (o := o) (.call hw hf hsp)
    exact ⟨hfault.1, hfault.2.1⟩
  · have hzero : s.sp ≠ 0 := by
      intro hzero
      rw [hzero] at hlen
      exact hne (List.length_eq_zero_iff.mp hlen)
    have hret := step_ret (o := o) hw hf hkk h hzero
    exact ⟨hret.1, hret.2.1.symm⟩
  · have hsp : s.sp = 0 := by
      rw [hnil] at hlen
      exact UInt8.toNat_inj.mp hlen.symm
    have hfault := step_faulting (o := o) (.ret hw hf hkk hsp)
    exact ⟨hfault.1, hfault.2.1⟩

/-! ### Whole runs -/

theorem sp_le_after (h : s.sp ≤ 16) (n : Nat) : (s.after o n).sp ≤ 16 := by
  induction n with
  | zero => exact h
  | succ n ih => exact sp_le_step o ih

/-- What lies on the stack below and with `a` is kept by a step, unless the step takes `a` off and goes there. -/
theorem returned_or_kept (h : s.sp ≤ 16) {base : List UInt16} {a : UInt16} (hbase : base ++ [a] <+: s.calls) :
    (s.step o).2.calls = base ∧ (s.step o).2.pc = a ∨ base ++ [a] <+: (s.step o).2.calls := by
  have hstep := handlesCalls o h
  by_cases hw : ∃ w, s.Fetches w ∧ (w.family = 0x2 ∨ w.family = 0x0 ∧ w.kk = 0xEE)
  · obtain ⟨w, hw, hf | ⟨hf, hkk⟩⟩ := hw
    · right
      by_cases hfull : s.calls.length = 16
      · rwa [(hstep.overflow w hw hf hfull).2]
      · rw [(hstep.call w hw hf hfull).2.1]
        exact hbase.trans (List.prefix_append _ _)
    · have hne : s.calls ≠ [] := by
        intro hnil
        rw [hnil, List.prefix_nil] at hbase
        simp at hbase
      have hpop := (hstep.ret w hw hf hkk hne).2
      rw [← hpop] at hbase
      rcases List.prefix_concat_iff.mp hbase with htop | hkept
      · obtain ⟨hcalls, hpc⟩ := List.append_inj' htop rfl
        exact .inl ⟨hcalls.symm, (List.singleton_inj.mp hpc).symm⟩
      · exact .inr hkept
  · right
    rwa [hstep.other fun w hfetch hcall => hw ⟨w, hfetch, hcall⟩]

theorem kept_after (h : s.sp ≤ 16) {base : List UInt16} {a : UInt16} (hbase : base ++ [a] <+: s.calls) {n : Nat}
    (hdeep : ∀ k ≤ n, (s.after o k).calls.length ≠ base.length) : base ++ [a] <+: (s.after o n).calls := by
  induction n with
  | zero => exact hbase
  | succ n ih =>
    have hkept := ih fun k hk => hdeep k (Nat.le_succ_of_le hk)
    rcases returned_or_kept (o := o) (sp_le_after h n) hkept with ⟨hcalls, -⟩ | hkept
    · exact absurd (congrArg List.length hcalls) (hdeep (n + 1) (Nat.le_refl _))
    · exact hkept

/-- A call on a full stack ends right behind itself. -/
theorem returns_of_full (hw : s.Fetches w) (hf : w.family = 0x2) (hfull : ¬ s.sp.toNat < 16) {k : Nat} (hk : 0 < k)
    (hdeep : ∀ j, 0 < j → j < k → (s.after o j).calls.length ≠ s.calls.length) :
    (s.after o k).pc = s.pc + 2 ∧ (s.after o k).calls = s.calls := by
  have hstep : s.after o 1 = { s with pc := s.pc + 2 } := by
    rw [after, after, step_of_fetches o hw, execWord_of_reads o _ (i := .call w.addr) ⟨hf, rfl⟩]
    exact exec_call_full (s := { s with pc := s.pc + 2 }) o w.addr hfull
  obtain rfl : k = 1 := by
    by_contra hne
    have hsame : (s.after o 1).calls = s.calls := by
      rw [hstep]
      rfl
    exact hdeep 1 Nat.one_pos (by omega) (congrArg List.length hsame)
  rw [hstep]
  exact ⟨rfl, rfl⟩

/-- The address that a call has pushed is kept while the run is deeper, and then it is gone to. -/
theorem returns_of_room (hw : s.Fetches w) (hf : w.family = 0x2) (hroom : s.sp.toNat < 16) {k : Nat} (hk : 0 < k)
    (hdeep : ∀ j, 0 < j → j < k → (s.after o j).calls.length ≠ s.calls.length)
    (hback : (s.after o k).calls.length = s.calls.length) :
    (s.after o k).pc = s.pc + 2 ∧ (s.after o k).calls = s.calls := by
  obtain ⟨-, hpush, -, hsp⟩ := step_call (o := o) hw hf hroom
  -- `t` is the session right after the call, `i` the number of steps from there to the one that returns
  obtain ⟨t, ht⟩ : ∃ t, t = (s.step o).2 := ⟨_, rfl⟩
  rw [← ht] at hpush hsp
  have hafter : ∀ i, s.after o (i + 1) = t.after o i := by
    intro i
    rw [ht, after_step]
  obtain ⟨i, rfl⟩ : ∃ i, k = i + 1 := ⟨k - 1, by omega⟩
  rcases i with _ | i
  · rw [hafter, after, hpush, List.length_append] at hback
    simp at hback
  · have hkept : s.calls ++ [s.pc + 2] <+: (t.after o i).calls := by
      refine kept_after hsp ⟨[], by rw [List.append_nil, hpush]⟩ fun j hj => ?_
      rw [← hafter]
      exact hdeep (j + 1) (Nat.succ_pos j) (by omega)
    rw [hafter, after_succ] at hback ⊢
    rcases returned_or_kept (o := o) (sp_le_after hsp i) hkept with ⟨hcalls, hpc⟩ | hkept
    · exact ⟨hpc, hcalls⟩
    · have hle := hkept.length_le
      rw [List.length_append, List.length_singleton] at hle
      omega

/-- The first session as deep as before a call is behind the call, with the addresses that it found. -/
theorem returns (hw : s.Fetches w) (hf : w.family = 0x2) {k : Nat} (hk : 0 < k)
    (hdeep : ∀ j, 0 < j → j < k → (s.after o j).calls.length ≠ s.calls.length)
    (hback : (s.after o k).calls.length = s.calls.length) :
    (s.after o k).pc = s.pc + 2 ∧ (s.after o k).calls = s.calls := by
  by_cases hroom : s.sp.toNat < 16
  · exact returns_of_room hw hf hroom hk hdeep hback
  · exact returns_of_full hw hf hroom hk hdeep

/-- **Every call comes back to where it was made.**  With the stack pointer within the stack, each step of a run handles
the return addresses as a stack of sixteen.  From a call on, whatever else is called in between, the first session with
as many return addresses as before it is behind the call and has just those. -/
theorem call_stack (o : Surroundings) (h : s.sp ≤ 16) :
    (∀ n, (s.after o n).HandlesCalls o) ∧
    ∀ n w k, (s.after o n).Fetches w → w.family = 0x2 → 0 < k →
      (∀ j, 0 < j → j < k → (s.after o (n + j)).calls.length ≠ (s.after o n).calls.length) →
      (s.after o (n + k)).calls.length = (s.after o n).calls.length →
      (s.after o (n + k)).pc = (s.after o n).pc + 2 ∧ (s.after o (n + k)).calls = (s.after o n).calls := by
  refine ⟨fun n => handlesCalls o (sp_le_after h n), fun n w k hw hf hk hdeep hback => ?_⟩
  simp only [after_add] at hdeep hback ⊢
  exact returns hw hf hk hdeep hback

/-- A program that calls, calls again inside the call, and returns twice. -/
def nested : Session where
  toMachine := .ofProcessor
    { Processor.powerOn with
      memory := Bytes.put (.replicate _ 0) Memory.programStart [0x22, 0x04, 0x12, 0x02, 0x22, 0x08, 0x00, 0xEE, 0x00, 0xEE] }

theorem call_stack_nested :
    nested.sp ≤ 16 ∧ nested.Fetches 0x2204 ∧
      (∀ j < 4, 0 < j → (nested.after .quiet j).calls.length ≠ nested.calls.length) ∧
      (nested.after .quiet 4).pc = 0x0202 ∧ (nested.after .quiet 4).calls = nested.calls := by
  have hsp : nested.sp ≤ 16 := by decide
  have hfetches : nested.Fetches 0x2204 := Machine.fetches_iff.mpr (by decide +kernel)
  have hdeep : ∀ j < 4, 0 < j → (nested.after .quiet j).calls.length ≠ nested.calls.length := by decide +kernel
  have hback : (nested.after .quiet 4).calls.length = nested.calls.length := by decide +kernel
  have hreturn := (call_stack .quiet hsp).2 0 0x2204 4 hfetches rfl (by decide)
  simp only [Nat.zero_add] at hreturn
  exact ⟨hsp, hfetches, hdeep, hreturn (fun j hpos hlt => hdeep j hlt hpos) hback⟩

end Session

end ChipEight
