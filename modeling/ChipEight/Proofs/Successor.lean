import ChipEight.Proofs.CallStack

/-!
# Where a step goes

The address of the next instruction, told word by word in natural numbers, so that nothing wraps.

* `Word.Passes` : the words that pass over the next one, and when.
* `Word.successor?` : the table of successors.
* `Word.Negates` : two words that pass over the next one in opposite cases.
* `Core.successors` : a step that does not end with a fault goes where the table says.
-/

namespace ChipEight

namespace Word

/-- The word passes over the next one while this key is held. -/
def Passes (m : Machine) (key : Option UInt8) (w : Word) : Prop :=
  w.family = 0x3 ∧ m.reg w.x = w.kk ∨
  w.family = 0x4 ∧ m.reg w.x ≠ w.kk ∨
  w.family = 0x5 ∧ m.reg w.x = m.reg w.y ∨
  w.family = 0x9 ∧ m.reg w.x ≠ m.reg w.y ∨
  w.family = 0xE ∧ w.kk = 0x9E ∧ key = some (m.reg w.x) ∨
  w.family = 0xE ∧ w.kk = 0xA1 ∧ key ≠ some (m.reg w.x)

instance (m : Machine) (key : Option UInt8) (w : Word) : Decidable (w.Passes m key) :=
  inferInstanceAs (Decidable (_ ∨ _))

/-- **The table of successors**: where the machine goes on from the word at its program counter, while this key is held.
There is no successor of a return without a return address. -/
def successor? (m : Machine) (key : Option UInt8) (w : Word) : Option Nat :=
  if w.family = 0x1 ∨ w.family = 0x2 then some w.addr.toNat
  else if w.family = 0xB then some (w.addr.toNat + (m.reg 0x0).toNat)
  else if w.family = 0x0 ∧ w.kk = 0xEE then if m.sp = 0 then none else m.stack[m.sp.toNat - 1]?.map UInt16.toNat
  else if w.family = 0xF ∧ w.kk = 0x0A ∧ key = none then some m.pc.toNat
  else if w.Passes m key then some (m.pc.toNat + 4)
  else some (m.pc.toNat + 2)

/-- The second word asks for the opposite of what the first one asks for. -/
def Negates (w w' : Word) : Prop :=
  w.x = w'.x ∧
    (w.family = 0x3 ∧ w'.family = 0x4 ∧ w.kk = w'.kk ∨
      w.family = 0x5 ∧ w'.family = 0x9 ∧ w.y = w'.y ∨
      w.family = 0xE ∧ w.kk = 0x9E ∧ w'.family = 0xE ∧ w'.kk = 0xA1)

variable {m : Machine} {key : Option UInt8} {w w' : Word}

/-- A word that stands for no instruction is passed by. -/
theorem successor?_of_not_reads (h : ∀ i : Instr, ¬ i.Reads w) : w.successor? m key = some (m.pc.toNat + 2) := by
  have hjump : ¬ (w.family = 0x1 ∨ w.family = 0x2) := by
    rintro (hf | hf)
    · exact h (.jump w.addr) ⟨hf, rfl⟩
    · exact h (.call w.addr) ⟨hf, rfl⟩
  have hplus : w.family ≠ 0xB := fun hf => h (.jumpPlus w.addr) ⟨hf, rfl⟩
  have hret : ¬ (w.family = 0x0 ∧ w.kk = 0xEE) := fun hw => h .ret hw
  have hawait : ¬ (w.family = 0xF ∧ w.kk = 0x0A ∧ key = none) := fun hw => h (.awaitKey w.x) ⟨hw.1, hw.2.1, rfl⟩
  have hpass : ¬ w.Passes m key := by
    rintro (⟨hf, -⟩ | ⟨hf, -⟩ | ⟨hf, -⟩ | ⟨hf, -⟩ | ⟨hf, hkk, -⟩ | ⟨hf, hkk, -⟩)
    · exact h (.skipEqByte w.x w.kk) ⟨hf, rfl, rfl⟩
    · exact h (.skipNeByte w.x w.kk) ⟨hf, rfl, rfl⟩
    · exact h (.skipEq w.x w.y) ⟨hf, rfl, rfl⟩
    · exact h (.skipNe w.x w.y) ⟨hf, rfl, rfl⟩
    · exact h (.skipHeld w.x) ⟨hf, hkk, rfl⟩
    · exact h (.skipNotHeld w.x) ⟨hf, hkk, rfl⟩
  rw [successor?, if_neg hjump, if_neg hplus, if_neg hret, if_neg hawait, if_neg hpass]

theorem Negates.passes_iff (h : w.Negates w') : w'.Passes m key ↔ ¬ w.Passes m key := by
  obtain ⟨hx, ⟨hf, hf', hkk⟩ | ⟨hf, hf', hy⟩ | ⟨hf, hkk, hf', hkk'⟩⟩ := h
  · simp [Passes, hf, hf', hx, hkk]
  · simp [Passes, hf, hf', hx, hy]
  · simp [Passes, hf, hf', hkk, hkk', hx]

theorem Negates.skips (h : w.Negates w') :
    w.family ∈ [0x3, 0x4, 0x5, 0x9, 0xE] ∧ w'.family ∈ [0x3, 0x4, 0x5, 0x9, 0xE] := by
  obtain ⟨-, ⟨hf, hf', -⟩ | ⟨hf, hf', -⟩ | ⟨hf, -, hf', -⟩⟩ := h <;> rw [hf, hf'] <;> decide

/-- Both words of a pair only pass over the next one or not. -/
theorem Negates.successor? (h : w.Negates w') :
    w.successor? m key = some (if w.Passes m key then m.pc.toNat + 4 else m.pc.toNat + 2) ∧
      w'.successor? m key = some (if w'.Passes m key then m.pc.toNat + 4 else m.pc.toNat + 2) := by
  obtain ⟨-, ⟨hf, hf', -⟩ | ⟨hf, hf', -⟩ | ⟨hf, -, hf', -⟩⟩ := h <;>
    simp only [Word.successor?, hf, hf', apply_ite some] <;> exact ⟨rfl, rfl⟩

end Word

/-! ### Steps -/

theorem Machine.Fetches.le {m : Machine} {w : Word} (h : m.Fetches w) : m.pc.toNat + 2 ≤ 4096 := by
  obtain ⟨hi, lo, -, hlo, -⟩ := h
  obtain ⟨hlt, -⟩ := Vector.getElem?_eq_some_iff.mp hlo
  exact hlt

theorem Word.addr_lt (w : Word) : w.addr.toNat < 4096 := by
  unfold addr
  rw [UInt16.toNat_mod]
  exact Nat.mod_lt _ (by decide)

namespace Session

variable {o : Surroundings} {s : Session} {w : Word} {i : Instr}

def past (s : Session) : Session := { s with pc := s.pc + 2 }

theorem toNat_pc_past (hw : s.Fetches w) :
    s.past.pc.toNat = s.pc.toNat + 2 ∧ (s.past.pc + 2).toNat = s.pc.toNat + 4 := by
  have hle := hw.le
  have htwo : (2 : UInt16).toNat = 2 := rfl
  have hpast : s.past.pc.toNat = s.pc.toNat + 2 := by
    show (s.pc + 2).toNat = _
    rw [UInt16.toNat_add, htwo]
    omega
  refine ⟨hpast, ?_⟩
  rw [UInt16.toNat_add, htwo, hpast]
  omega

theorem here_past (s : Session) : s.past.here = s.pc := UInt16.add_sub_cancel s.pc 2

theorem successor?_of_skips (hw : s.Fetches w) (hf : w.family ∈ [0x3, 0x4, 0x5, 0x9, 0xE]) {key : Option UInt8} {c : Bool}
    (h : c = true ↔ w.Passes s.toMachine key) :
    w.successor? s.toMachine key = some (s.past.passIf c).pc.toNat := by
  obtain ⟨hnext, hsecond⟩ := toNat_pc_past hw
  have hskips : w.successor? s.toMachine key =
      if w.Passes s.toMachine key then some (s.pc.toNat + 4) else some (s.pc.toNat + 2) := by
    simp only [List.mem_cons, List.not_mem_nil, or_false] at hf
    rcases hf with hf | hf | hf | hf | hf <;> simp [Word.successor?, hf]
  rw [hskips, passIf_eq]
  by_cases hpass : w.Passes s.toMachine key
  · rw [if_pos hpass, if_pos (h.mpr hpass), hsecond]
  · rw [if_neg hpass, if_neg fun hc => hpass (h.mp hc), hnext]

theorem pc_exec_ret (h : s.sp ≤ 16) (hzero : s.sp ≠ 0) :
    s.stack[s.sp.toNat - 1]? = some (s.exec o .ret).2.pc := by
  have htop := top_lt h hzero
  have hsub : (s.sp - 1).toNat = s.sp.toNat - 1 := by
    refine UInt8.toNat_sub_of_le _ _ ?_
    rw [UInt8.le_iff_toNat_le]
    exact Nat.one_le_iff_ne_zero.mpr fun hz => hzero (UInt8.toNat_inj.mp hz)
  rw [← hsub, Vector.getElem?_eq_getElem htop]
  simp only [exec, if_neg hzero, Vector.getElem?_eq_getElem htop]

/-- An instruction that does not end with a fault goes where the row of its word says. -/
theorem successor?_of_reads (h : s.sp ≤ 16) (hw : s.Fetches w) (hi : i.Reads w)
    (hok : ∀ f, (s.past.exec o i).1 ≠ .fault f) :
    w.successor? s.toMachine (o.heldKey s.tally) = some (s.past.exec o i).2.pc.toNat := by
  obtain ⟨hnext, -⟩ := toNat_pc_past hw
  cases i with
  | ret =>
    obtain ⟨hf, hkk⟩ := hi
    have hzero : s.sp ≠ 0 := by
      intro hzero
      have hzero' : s.past.sp = 0 := hzero
      refine hok (.stackUnderflow s.past.here) ?_
      simp only [exec, if_pos hzero']
    have hpop : s.stack[s.sp.toNat - 1]? = some (s.past.exec o .ret).2.pc := pc_exec_ret (s := s.past) h hzero
    simp [Word.successor?, hf, hkk, hzero, hpop]
  | call a =>
    obtain ⟨hf, rfl⟩ := hi
    by_cases hroom : s.past.sp.toNat < 16
    · simp [Word.successor?, hf, exec, hroom]
    · refine absurd ?_ (hok (.stackOverflow s.past.here))
      simp only [exec, dif_neg hroom]
  | jump a =>
    obtain ⟨hf, rfl⟩ := hi
    simp [Word.successor?, hf, exec]
  | jumpPlus a =>
    obtain ⟨hf, rfl⟩ := hi
    have hlt := w.addr_lt
    have hreg := (s.reg 0).toNat_lt
    have hsum : (w.addr + (s.reg 0).toUInt16).toNat = w.addr.toNat + (s.reg 0).toNat := by
      rw [UInt16.toNat_add, UInt8.toNat_toUInt16]
      omega
    simp only [Word.successor?, hf, exec]
    exact congrArg some hsum.symm
  | skipEqByte x kk | skipNeByte x kk | skipEq x y | skipNe x y =>
    obtain ⟨hf, rfl, rfl⟩ := hi
    exact successor?_of_skips hw (by simp [hf]) (by simp [Word.Passes, hf, past, Processor.reg])
  | skipHeld x | skipNotHeld x =>
    obtain ⟨hf, hkk, rfl⟩ := hi
    exact successor?_of_skips hw (by simp [hf]) (by simp [Word.Passes, hf, hkk, past, Processor.reg])
  | awaitKey x =>
    obtain ⟨hf, hkk, rfl⟩ := hi
    have htally : o.heldKey s.past.tally = o.heldKey s.tally := rfl
    simp only [exec, htally]
    cases hkey : o.heldKey s.tally with
    | some k =>
      simp only [Word.successor?, hf, hkk, Word.Passes]
      exact congrArg some hnext.symm
    | none =>
      simp only [Word.successor?, hf, hkk]
      rw [here_past]
      rfl
  | clear =>
    simp only [Word.successor?, Word.Passes, hi.1, hi.2]
    exact congrArg some hnext.symm
  | setByte x kk | addByte x kk | copy x y | or x y | and x y | xor x y | add x y | sub x y | subFrom x y
  | shiftRight x | shiftLeft x | setIndex a | random x kk =>
    simp only [Word.successor?, Word.Passes, hi.1]
    exact congrArg some hnext.symm
  | readDelay x | setDelay x | setSound x | addIndex x | glyph x =>
    simp only [Word.successor?, Word.Passes, hi.1, hi.2.1]
    exact congrArg some hnext.symm
  | draw x y n =>
    have hpc : (s.past.exec o (.draw x y n)).2.pc = s.past.pc := by
      simp only [exec]
      split <;> rfl
    simp only [Word.successor?, Word.Passes, hi.1, hpc]
    exact congrArg some hnext.symm
  | digits x | dump x | fill x =>
    refine .trans (b := some s.past.pc.toNat) ?_ (congrArg (fun pc : UInt16 => some pc.toNat) ?_)
    · simp only [Word.successor?, Word.Passes, hi.1, hi.2.1]
      exact congrArg some hnext.symm
    · simp only [exec]
      split <;> rfl

theorem successor?_of_fetches (h : s.sp ≤ 16) (hw : s.Fetches w) (hok : ∀ f, (s.step o).1 ≠ .fault f) :
    w.successor? s.toMachine (o.heldKey s.tally) = some (s.step o).2.pc.toNat := by
  have hstep : s.step o = s.past.execWord o w := step_of_fetches o hw
  rw [hstep] at hok ⊢
  by_cases hreads : ∃ i : Instr, i.Reads w
  · obtain ⟨i, hi⟩ := hreads
    rw [s.past.execWord_of_reads o hi] at hok ⊢
    exact successor?_of_reads h hw hi hok
  · have hreads := not_exists.mp hreads
    rw [s.past.execWord_of_not_reads o hreads, Word.successor?_of_not_reads hreads, (toNat_pc_past hw).1]

/-- A word that may pass over the next one never ends with a fault. -/
theorem step_ne_fault_of_skips (h : s.sp ≤ 16) (hw : s.Fetches w) (hf : w.family ∈ [0x3, 0x4, 0x5, 0x9, 0xE]) (f : Fault) :
    (s.step o).1 ≠ .fault f := by
  intro hfault
  have hends := step_endsBy o s
  have hne {w' : Word} (hw' : s.Fetches w') {d : Digit} (hd : w'.family = d) (hout : d ∉ [0x3, 0x4, 0x5, 0x9, 0xE]) :
      False := by
    rw [Machine.fetches_unique hw' hw] at hd
    exact hout (hd ▸ hf)
  cases (Machine.fault?_eq_some_iff h).mp (hends.fault_iff.mp hfault) with
  | fetch hout => exact absurd hw.le (by omega)
  | ret hw' hf' | call hw' hf' | draw hw' hf' | digits hw' hf' | dump hw' hf' | fill hw' hf' =>
    exact hne hw' hf' (by decide)

/-- A word and its opposite go to opposite addresses from one session, but for the words that stand in memory. -/
theorem step_negates {s' : Session} {w' : Word} (h : s.sp ≤ 16) (hw : s.Fetches w) (hw' : s'.Fetches w')
    (hneg : w.Negates w') {memory : Memory} (hs' : s' = { s with memory }) :
    (s.step o).2.pc.toNat = s.pc.toNat + 4 ∧ (s'.step o).2.pc.toNat = s.pc.toNat + 2 ∨
      (s.step o).2.pc.toNat = s.pc.toNat + 2 ∧ (s'.step o).2.pc.toNat = s.pc.toNat + 4 := by
  have h' : s'.sp ≤ 16 := hs' ▸ h
  have hgoes := successor?_of_fetches (o := o) h hw (step_ne_fault_of_skips h hw hneg.skips.1)
  have hgoes' := successor?_of_fetches (o := o) h' hw' (step_ne_fault_of_skips h' hw' hneg.skips.2)
  rw [hneg.successor?.1, Option.some.injEq] at hgoes
  rw [hneg.successor?.2, Option.some.injEq] at hgoes'
  have hpc : s'.pc = s.pc := hs' ▸ rfl
  have hiff : w'.Passes s'.toMachine (o.heldKey s'.tally) ↔ ¬ w.Passes s.toMachine (o.heldKey s.tally) := by
    rw [hs']
    exact hneg.passes_iff (m := s.toMachine)
  by_cases hpass : w.Passes s.toMachine (o.heldKey s.tally)
  · rw [if_pos hpass] at hgoes
    rw [if_neg fun hp => hiff.mp hp hpass, hpc] at hgoes'
    exact .inl ⟨hgoes.symm, hgoes'.symm⟩
  · rw [if_neg hpass] at hgoes
    rw [if_pos (hiff.mpr hpass), hpc] at hgoes'
    exact .inr ⟨hgoes.symm, hgoes'.symm⟩

end Session

/-! ### Keys -/

/-- No key that the surroundings report can be the one in this register: they report none, or one that is not on the
keypad, or the register holds none of its numbers. -/
def Surroundings.Misses (o : Surroundings) (t : Tally) (b : UInt8) : Prop :=
  o.key t.asked = none ∨ (∃ k, o.key t.asked = some k ∧ 16 ≤ k) ∨ 16 ≤ b

theorem Surroundings.Misses.heldKey_ne {o : Surroundings} {t : Tally} {b : UInt8} (h : o.Misses t b) :
    o.heldKey t ≠ some b := by
  intro hkey
  obtain ⟨hb, hlt⟩ := Option.filter_eq_some_iff.mp hkey
  have hlt : b < 16 := of_decide_eq_true hlt
  rcases h with hnone | ⟨k, hk, hle⟩ | hle
  · rw [hnone] at hb
    cases hb
  · rw [hk] at hb
    cases hb
    exact UInt8.not_le.mpr hlt hle
  · exact UInt8.not_le.mpr hlt hle

namespace Core

variable (o : Surroundings)

def reload (c : Core) (memory : Memory) : Core := { c with processor.memory := memory }

theorem perform_step (c : Core) :
    c.perform o .step = (.ended (c.session.step o).1, c.resume (c.session.step o).2) := rfl

@[simp] theorem pc_resume (c : Core) (s : Session) : (c.resume s).processor.pc = s.pc := rfl

/-- **Every step goes where the table says.**  With the stack pointer within the stack, the address after a step that does
not end with a fault is the successor of its word, as a natural number.  A key that is not on the keypad, or none, is never
the one in a register, and neither is any key when the register holds no number of one.  Of a word and its opposite, one
passes over the next word and the other does not. -/
theorem successors {c : Core} (h : c.machine.sp ≤ 16) :
    (∀ w, c.machine.Fetches w → (∀ f, (c.perform o .step).1 ≠ .ended (.fault f)) →
      w.successor? c.machine (o.heldKey c.tally) = some (c.perform o .step).2.processor.pc.toNat) ∧
    (∀ w, c.machine.Fetches w → w.family = 0xE → o.Misses c.tally (c.machine.reg w.x) →
      (w.kk = 0x9E → (c.perform o .step).2.processor.pc.toNat = c.processor.pc.toNat + 2) ∧
      (w.kk = 0xA1 → (c.perform o .step).2.processor.pc.toNat = c.processor.pc.toNat + 4)) ∧
    ∀ (w w' : Word) (memory memory' : Memory), w.Negates w' →
      (c.reload memory).machine.Fetches w → (c.reload memory').machine.Fetches w' →
      let pc := ((c.reload memory).perform o .step).2.processor.pc.toNat
      let pc' := ((c.reload memory').perform o .step).2.processor.pc.toNat
      pc = c.processor.pc.toNat + 4 ∧ pc' = c.processor.pc.toNat + 2 ∨
        pc = c.processor.pc.toNat + 2 ∧ pc' = c.processor.pc.toNat + 4 := by
  simp only [perform_step, pc_resume, ne_eq, Answer.ended.injEq]
  refine ⟨fun w hw hok => ?_, fun w hw hf hmiss => ?_, fun w w' memory memory' hneg hw hw' => ?_⟩
  · exact Session.successor?_of_fetches (s := c.session) h hw hok
  · have hok := Session.step_ne_fault_of_skips (s := c.session) (o := o) h hw (by simp [hf])
    have hgoes := Session.successor?_of_fetches (s := c.session) h hw hok
    have hne : o.heldKey c.session.tally ≠ some (c.session.reg w.x) := hmiss.heldKey_ne
    refine ⟨fun hkk => ?_, fun hkk => ?_⟩
    · have hrow : w.successor? c.session.toMachine (o.heldKey c.session.tally) = some (c.session.pc.toNat + 2) := by
        simp [Word.successor?, Word.Passes, hf, hkk, hne]
      exact Option.some.inj (hgoes.symm.trans hrow)
    · have hrow : w.successor? c.session.toMachine (o.heldKey c.session.tally) = some (c.session.pc.toNat + 4) := by
        simp [Word.successor?, Word.Passes, hf, hkk, hne]
      exact Option.some.inj (hgoes.symm.trans hrow)
  · have hs' : (c.reload memory').session = { (c.reload memory).session with memory := memory' } := rfl
    exact Session.step_negates (s := (c.reload memory).session) h hw hw' hneg hs'

/-- A core that looks for a key while register 0 holds the number of none. -/
def searching : Core where
  processor := { Processor.powerOn with
    v := Vector.replicate 16 0x20
    memory := Bytes.put (.replicate _ 0) Memory.programStart [0xE0, 0xA1] }

/-- Somebody reports a key that is not on the keypad, the very number in the register. -/
theorem successors_searching :
    searching.machine.sp ≤ 16 ∧ searching.machine.Fetches 0xE0A1 ∧
      (searching.perform ⟨fun _ => some 0x20, fun _ => 0⟩ .step).2.processor.pc.toNat = 0x204 := by
  have hsp : searching.machine.sp ≤ 16 := by decide
  have hw : searching.machine.Fetches 0xE0A1 := Machine.fetches_iff.mpr (by decide +kernel)
  have hmiss : Surroundings.Misses ⟨fun _ => some 0x20, fun _ => 0⟩ searching.tally
      (searching.machine.reg (0xE0A1 : Word).x) := .inr (.inl ⟨0x20, rfl, by decide⟩)
  have hgoes := (successors ⟨fun _ => some 0x20, fun _ => 0⟩ hsp).2.1 0xE0A1 hw (by decide) hmiss
  exact ⟨hsp, hw, hgoes.2 (by decide)⟩

end Core

end ChipEight
