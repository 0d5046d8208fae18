import ChipEight.Proofs.Calls
import ChipEight.Proofs.Faults

/-!
# What an instruction leaves alone

* `Part` : the parts of a machine that instructions change, the program counter apart.
* `Instr.writes` : the parts that an instruction may change; `Session.same_exec` : all others stay the same.
* `Word.MayChange`, `Word.calls` : the table of what a word may change and of the calls that it makes.
* `Core.footprint` : a word changes and calls nothing but what the table says.
-/

namespace ChipEight

/-! ### Parts of a machine -/

/-- A part of a machine. -/
inductive Part where
  | byte (a : Nat)
  | callStack
  | screen
  | delay
  | sound
  | index
  | reg (r : Digit)
  deriving DecidableEq, Repr

/-- Two machines have the same in this part. -/
def Part.Same (m m' : Machine) : Part → Prop
  | .byte a => m'.memory[a]? = m.memory[a]?
  | .callStack => (m'.sp, m'.stack) = (m.sp, m.stack)
  | .screen => m'.screen = m.screen
  | .delay => m'.delay = m.delay
  | .sound => m'.sound = m.sound
  | .index => m'.i = m.i
  | .reg r => m'.reg r = m.reg r

/-- The address that the index register stands for, as a number. -/
def Processor.base (p : Processor) : Nat := p.i.toNat % 4096

/-- The parts that an instruction may change. -/
def Instr.writes (m : Machine) : Instr → List Part
  | .clear => [.screen]
  | .ret | .call _ => [.callStack]
  | .jump _ | .jumpPlus _ | .skipEqByte _ _ | .skipNeByte _ _ | .skipEq _ _ | .skipNe _ _ | .skipHeld _
  | .skipNotHeld _ => []
  | .setByte x _ | .addByte x _ | .copy x _ | .or x _ | .and x _ | .xor x _ | .random x _ | .readDelay x
  | .awaitKey x => [.reg x]
  | .add x _ | .sub x _ | .subFrom x _ | .shiftRight x | .shiftLeft x => [.reg x, .reg 15]
  | .setIndex _ | .addIndex _ | .glyph _ => [.index]
  | .draw _ _ _ => [.screen, .reg 15]
  | .setDelay _ => [.delay]
  | .setSound _ => [.sound]
  | .digits _ => (List.range' m.base 3).map .byte
  | .dump x => (List.range' m.base (x.val + 1)).map .byte
  | .fill x => ((List.finRange 16).filter (· ≤ x)).map .reg

namespace Part

variable {p : Part} {m : Machine}

theorem same_refl (p : Part) (m : Machine) : p.Same m m := by cases p <;> rfl

theorem same_pc (p : Part) (m : Machine) (pc : UInt16) : p.Same m { m with pc } := by cases p <;> rfl

theorem same_registers {v : Vector UInt8 16} (h : ∀ r, p = .reg r → v.get r = m.v.get r) : p.Same m { m with v } := by
  cases p with
  | reg r => exact h r rfl
  | _ => rfl

theorem same_memory {memory : Memory} (h : ∀ a, p = .byte a → memory[a]? = m.memory[a]?) :
    p.Same m { m with memory } := by
  cases p with
  | byte a => exact h a rfl
  | _ => rfl

end Part

theorem Bytes.getElem?_put_of_outside {n : Nat} (m : Bytes n) {start k : Nat} {bytes : List UInt8}
    (h : k < start ∨ start + bytes.length ≤ k) : (m.put start bytes)[k]? = m[k]? := by
  rcases Nat.lt_or_ge k n with hk | hk
  · rw [Vector.getElem?_eq_getElem hk, Vector.getElem?_eq_getElem hk, getElem_put _ _ _ _ hk]
    split
    · rw [List.getElem?_eq_none (by omega)]
      rfl
    · rfl
  · rw [Vector.getElem?_eq_none hk, Vector.getElem?_eq_none hk]

/-! ### Instructions -/

namespace Session

variable {s : Session} {p : Part}

theorem same_setReg {x : Digit} (h : p ≠ .reg x) (b : UInt8) : p.Same s.toMachine (s.setReg x b).toMachine := by
  refine Part.same_registers fun r hr => ?_
  subst hr
  have hx : x ≠ r := fun e => h (e ▸ rfl)
  exact (s.reg_setReg x r b).trans (if_neg hx)

theorem same_setFlagged {x : Digit} (h : p ≠ .reg x) (hflag : p ≠ .reg 15) (b : UInt8) (flag : Bool) :
    p.Same s.toMachine (s.setFlagged x b flag).toMachine := by
  refine Part.same_registers fun r hr => ?_
  subst hr
  have hx : x ≠ r := fun e => h (e ▸ rfl)
  have h15 : 15 ≠ r := fun e => hflag (e ▸ rfl)
  exact (s.reg_setFlagged x r b flag).trans ((if_neg h15).trans (if_neg hx))

theorem same_put {len : Nat} {bytes : List UInt8} (hlen : bytes.length = len)
    (h : p ∉ (List.range' s.base len).map .byte) :
    p.Same s.toMachine { s.toMachine with memory := s.memory.put s.address.toNat bytes } := by
  refine Part.same_memory fun a ha => Bytes.getElem?_put_of_outside s.memory ?_
  subst ha
  simp only [List.mem_map, List.mem_range'_1, Part.byte.injEq, exists_eq_right] at h
  rw [s.toNat_address, hlen]
  unfold Processor.base at h
  omega

theorem same_loadRegs {x : Digit} {bytes : List UInt8} (hlen : bytes.length = x.val + 1)
    (h : p ∉ ((List.finRange 16).filter (· ≤ x)).map .reg) :
    p.Same s.toMachine { s.toMachine with v := loadRegs s.v bytes } := by
  refine Part.same_registers fun r hr => ?_
  subst hr
  simp only [List.mem_map, List.mem_filter, List.mem_finRange, true_and, decide_eq_true_eq, Part.reg.injEq,
    exists_eq_right] at h
  have hlt : x.val < r.val := not_le.mp h
  have hout : (Bytes.put s.v 0 bytes)[r.val]? = s.v[r.val]? := Bytes.getElem?_put_of_outside s.v (by omega)
  rwa [Vector.getElem?_eq_getElem r.isLt, Vector.getElem?_eq_getElem r.isLt, Option.some.injEq] at hout

/-- **The frame of an instruction**: what it may not change stays the same. -/
theorem same_exec (o : Surroundings) (s : Session) (i : Instr) (h : p ∉ i.writes s.toMachine) :
    p.Same s.toMachine (s.exec o i).2.toMachine := by
  cases i with
  | clear | setIndex a | addIndex x | glyph x | setDelay x | setSound x =>
    rw [Instr.writes, List.mem_singleton] at h
    cases p <;> first | rfl | exact absurd rfl h
  | ret =>
    rw [Instr.writes, List.mem_singleton] at h
    simp only [exec]
    split
    · exact p.same_refl _
    · split
      · cases p <;> first | rfl | exact absurd rfl h
      · exact p.same_refl _
  | call a =>
    rw [Instr.writes, List.mem_singleton] at h
    simp only [exec]
    split
    · cases p <;> first | rfl | exact absurd rfl h
    · exact p.same_refl _
  | jump a | jumpPlus a => exact p.same_pc _ _
  | skipEqByte x kk | skipNeByte x kk | skipEq x y | skipNe x y | skipHeld x | skipNotHeld x =>
    simp only [exec, passIf_eq]
    exact p.same_pc _ _
  | setByte x kk | addByte x kk | copy x y | or x y | and x y | xor x y | random x kk | readDelay x =>
    rw [Instr.writes, List.mem_singleton] at h
    exact same_setReg h _
  | awaitKey x =>
    rw [Instr.writes, List.mem_singleton] at h
    simp only [exec]
    split
    · exact same_setReg h _
    · exact p.same_pc _ _
  | add x y | sub x y | subFrom x y | shiftRight x | shiftLeft x =>
    simp only [Instr.writes, List.mem_cons, List.not_mem_nil, or_false, not_or] at h
    exact same_setFlagged h.1 h.2 _ _
  | draw x y n =>
    simp only [Instr.writes, List.mem_cons, List.not_mem_nil, or_false, not_or] at h
    simp only [exec]
    split
    · exact p.same_refl _
    · have hreg := same_setReg (s := s) h.2
      cases p with
      | screen => exact absurd rfl h.1
      | reg r => exact hreg _
      | _ => rfl
  | digits x =>
    simp only [exec, s.write_eq_overrun _ (length_decimals (s.reg x)) (by decide)]
    cases s.overrun? 3 with
    | none => exact same_put (length_decimals (s.reg x)) h
    | some f => exact p.same_refl _
  | dump x =>
    simp only [exec, s.write_eq_overrun _ (s.length_take_registers x) (by omega)]
    cases s.overrun? (x.val + 1) with
    | none => exact same_put (s.length_take_registers x) h
    | some f => exact p.same_refl _
  | fill x =>
    simp only [exec, s.read_eq_overrun (x.val + 1) (by omega)]
    cases hover : s.overrun? (x.val + 1) with
    | none => exact same_loadRegs (s.length_slice_address hover) h
    | some f => exact p.same_refl _

end Session

/-! ### Words -/

namespace Word

variable {m : Machine} {w : Word} {i : Instr} {p : Part}

/-- **What a word may change**, by the part. -/
def MayChange (m : Machine) (w : Word) : Part → Prop
  | .byte a => w.family = 0xF ∧
      (w.kk = 0x33 ∧ m.base ≤ a ∧ a < m.base + 3 ∨ w.kk = 0x55 ∧ m.base ≤ a ∧ a < m.base + (w.x.val + 1))
  | .callStack => w.family = 0x2 ∨ w.family = 0x0 ∧ w.kk = 0xEE
  | .screen => w.family = 0x0 ∧ w.kk = 0xE0 ∨ w.family = 0xD
  | .delay => w.family = 0xF ∧ w.kk = 0x15
  | .sound => w.family = 0xF ∧ w.kk = 0x18
  | .index => w.family = 0xA ∨ w.family = 0xF ∧ w.kk ∈ [0x1E, 0x29]
  | .reg r =>
      r = w.x ∧ (w.family ∈ [0x6, 0x7, 0xC] ∨ w.family = 0x8 ∧ w.n ∈ [0x0, 0x1, 0x2, 0x3, 0x4, 0x5, 0x6, 0x7, 0xE] ∨
        w.family = 0xF ∧ w.kk ∈ [0x07, 0x0A]) ∨
      r ≤ w.x ∧ w.family = 0xF ∧ w.kk = 0x65 ∨
      r = 0xF ∧ (w.family = 0x8 ∧ w.n ∈ [0x4, 0x5, 0x6, 0x7, 0xE] ∨ w.family = 0xD)

def calls (m : Machine) (w : Word) : Calls where
  asked := if w.family = 0xE ∧ w.kk ∈ [0x9E, 0xA1] ∨ w.family = 0xF ∧ w.kk = 0x0A then 1 else 0
  started := if w.family = 0xF ∧ w.kk = 0x18 ∧ m.reg w.x ≠ 0 then 1 else 0
  drawn := if w.family = 0xC then 1 else 0

/-- The table allows what the instruction of the word does. -/
theorem mayChange_of_mem_writes (hi : i.Reads w) (h : p ∈ i.writes m) : w.MayChange m p := by
  cases i with
  | clear | ret | setDelay x | setSound x =>
    cases List.mem_singleton.mp h
    simp [MayChange, hi.1, hi.2]
  | call a | setIndex a | addIndex x | glyph x =>
    cases List.mem_singleton.mp h
    simp [MayChange, hi.1, hi.2]
  | jump a | jumpPlus a | skipEqByte x kk | skipNeByte x kk | skipEq x y | skipNe x y | skipHeld x | skipNotHeld x =>
    cases h
  | setByte x kk | addByte x kk | random x kk =>
    obtain ⟨hf, rfl, -⟩ := hi
    cases List.mem_singleton.mp h
    simp [MayChange, hf]
  | copy x y | or x y | and x y | xor x y =>
    obtain ⟨hf, hn, rfl, -⟩ := hi
    cases List.mem_singleton.mp h
    simp [MayChange, hf, hn]
  | readDelay x | awaitKey x =>
    obtain ⟨hf, hkk, rfl⟩ := hi
    cases List.mem_singleton.mp h
    simp [MayChange, hf, hkk]
  | add x y | sub x y | subFrom x y =>
    obtain ⟨hf, hn, rfl, -⟩ := hi
    simp only [Instr.writes, List.mem_cons, List.not_mem_nil, or_false] at h
    rcases h with rfl | rfl <;> simp [MayChange, hf, hn]
  | shiftRight x | shiftLeft x =>
    obtain ⟨hf, hn, rfl⟩ := hi
    simp only [Instr.writes, List.mem_cons, List.not_mem_nil, or_false] at h
    rcases h with rfl | rfl <;> simp [MayChange, hf, hn]
  | draw x y n =>
    simp only [Instr.writes, List.mem_cons, List.not_mem_nil, or_false] at h
    rcases h with rfl | rfl <;> simp [MayChange, hi.1]
  | digits x =>
    obtain ⟨a, ha, rfl⟩ := List.mem_map.mp h
    exact ⟨hi.1, .inl ⟨hi.2.1, List.mem_range'_1.mp ha⟩⟩
  | dump x =>
    obtain ⟨hf, hkk, rfl⟩ := hi
    obtain ⟨a, ha, rfl⟩ := List.mem_map.mp h
    exact ⟨hf, .inr ⟨hkk, List.mem_range'_1.mp ha⟩⟩
  | fill x =>
    obtain ⟨hf, hkk, rfl⟩ := hi
    obtain ⟨r, hr, rfl⟩ := List.mem_map.mp h
    have hle : r ≤ w.x := of_decide_eq_true (List.mem_filter.mp hr).2
    exact .inr (.inl ⟨hle, hf, hkk⟩)

theorem call?_eq_some_iff {call : Call} : w.call? m = some call ↔ ∃ i : Instr, i.Reads w ∧ i.call? m = some call := by
  unfold call?
  rw [Option.bind_eq_some_iff]
  exact exists_congr fun i => and_congr_left' Instr.ofWord?_eq_some_iff

theorem call?_eq_ask_iff :
    w.call? m = some .ask ↔ w.family = 0xE ∧ w.kk ∈ [0x9E, 0xA1] ∨ w.family = 0xF ∧ w.kk = 0x0A := by
  rw [call?_eq_some_iff]
  constructor
  · rintro ⟨i, hi, hcall⟩
    cases i with
    | skipHeld x | skipNotHeld x | awaitKey x => simp [hi.1, hi.2.1]
    | setSound x =>
      simp only [Instr.call?] at hcall
      split at hcall <;> cases hcall
    | _ => cases hcall
  · rintro (⟨hf, hkk⟩ | ⟨hf, hkk⟩)
    · simp only [List.mem_cons, List.not_mem_nil, or_false] at hkk
      rcases hkk with hkk | hkk
      · exact ⟨.skipHeld w.x, ⟨hf, hkk, rfl⟩, rfl⟩
      · exact ⟨.skipNotHeld w.x, ⟨hf, hkk, rfl⟩, rfl⟩
    · exact ⟨.awaitKey w.x, ⟨hf, hkk, rfl⟩, rfl⟩

theorem call?_eq_startTone_iff :
    w.call? m = some .startTone ↔ w.family = 0xF ∧ w.kk = 0x18 ∧ m.reg w.x ≠ 0 := by
  rw [call?_eq_some_iff]
  constructor
  · rintro ⟨i, hi, hcall⟩
    cases i with
    | setSound x =>
      obtain ⟨hf, hkk, rfl⟩ := hi
      refine ⟨hf, hkk, fun hzero => ?_⟩
      simp [Instr.call?, hzero] at hcall
    | _ => cases hcall
  · rintro ⟨hf, hkk, hne⟩
    exact ⟨.setSound w.x, ⟨hf, hkk, rfl⟩, if_neg hne⟩

theorem call?_eq_draw_iff : w.call? m = some .draw ↔ w.family = 0xC := by
  rw [call?_eq_some_iff]
  constructor
  · rintro ⟨i, hi, hcall⟩
    cases i with
    | random x kk => exact hi.1
    | setSound x =>
      simp only [Instr.call?] at hcall
      split at hcall <;> cases hcall
    | _ => cases hcall
  · intro hf
    exact ⟨.random w.x w.kk, ⟨hf, rfl, rfl⟩, rfl⟩

end Word

theorem Machine.fetches_unique {m : Machine} {w w' : Word} (h : m.Fetches w) (h' : m.Fetches w') : w = w' := by
  rw [fetches_iff] at h h'
  exact Except.ok.inj (h.symm.trans h')

namespace Session

variable (o : Surroundings) (s : Session) {w : Word} {i : Instr} {p : Part}

theorem execWord_of_reads (h : i.Reads w) : s.execWord o w = s.exec o i := by
  unfold execWord
  rw [Instr.ofWord?_of_reads h]

theorem execWord_of_not_reads (h : ∀ i : Instr, ¬ i.Reads w) : s.execWord o w = (.next, s) := by
  have hnone : Instr.ofWord? w = none := by
    refine Option.eq_none_iff_forall_not_mem.mpr fun i hi => ?_
    exact h i (Instr.ofWord?_eq_some_iff.mp hi)
  unfold execWord
  rw [hnone]

theorem step_of_fetches {s : Session} (h : s.Fetches w) : s.step o = { s with pc := s.pc + 2 }.execWord o w := by
  unfold step
  rw [Machine.fetches_iff.mp h]

theorem same_execWord (h : ¬ w.MayChange s.toMachine p) : p.Same s.toMachine (s.execWord o w).2.toMachine := by
  by_cases hw : ∃ i : Instr, i.Reads w
  · obtain ⟨i, hi⟩ := hw
    rw [s.execWord_of_reads o hi]
    exact same_exec o s i fun hp => h (Word.mayChange_of_mem_writes hi hp)
  · rw [s.execWord_of_not_reads o (not_exists.mp hw)]
    exact p.same_refl _

/-- What the table does not allow the word at the program counter stays the same in a step. -/
theorem same_step (h : ∀ w, s.Fetches w → ¬ w.MayChange s.toMachine p) :
    p.Same s.toMachine (s.step o).2.toMachine := by
  cases hw : s.memory.word s.pc with
  | error f =>
    unfold step
    rw [hw]
    exact p.same_refl _
  | ok w =>
    have hw := Machine.fetches_iff.mpr hw
    rw [step_of_fetches o hw]
    -- the table does not look at the program counter
    have hmay : ¬ w.MayChange { s.toMachine with pc := s.pc + 2 } p := by
      have hp := h w hw
      cases p <;> exact hp
    have hsame := same_execWord o { s with pc := s.pc + 2 } hmay
    cases p <;> exact hsame

end Session

theorem Tally.after_eq (t : Tally) (call : Option Call) :
    (t.after call).asked = t.asked + (if call = some .ask then 1 else 0) ∧
      (t.after call).started = t.started + (if call = some .startTone then 1 else 0) ∧
      (t.after call).drawn = t.drawn + (if call = some .draw then 1 else 0) ∧ (t.after call).stopped = t.stopped := by
  rcases call with _ | _ | _ | _ <;> exact ⟨rfl, rfl, rfl, rfl⟩

/-! ### Cores -/

/-- Between two cores nothing has changed and no call was made but what the table gives the word. -/
structure Word.Explains (w : Word) (c c' : Core) : Prop where
  same : ∀ p, ¬ w.MayChange c.machine p → p.Same c.machine c'.machine
  mode_eq : c'.board.mode = c.board.mode
  rate_eq : c'.board.rate = c.board.rate
  fault_eq : c'.board.fault = c.board.fault
  asked_eq : c'.tally.asked = c.tally.asked + (w.calls c.machine).asked
  started_eq : c'.tally.started = c.tally.started + (w.calls c.machine).started
  drawn_eq : c'.tally.drawn = c.tally.drawn + (w.calls c.machine).drawn
  stopped_eq : c'.tally.stopped = c.tally.stopped

namespace Core

variable (o : Surroundings) (c : Core) (w : Word)

theorem explains_exec : w.Explains c (c.perform o (.exec w)).2 := by
  have htally : (c.perform o (.exec w)).2.tally = c.tally.after (w.call? c.machine) := tally_perform o c (.exec w)
  obtain ⟨hasked, hstarted, hdrawn, hstopped⟩ := c.tally.after_eq (w.call? c.machine)
  rw [← htally] at hasked hstarted hdrawn hstopped
  simp only [Word.call?_eq_ask_iff, Word.call?_eq_startTone_iff, Word.call?_eq_draw_iff] at hasked hstarted hdrawn
  exact ⟨fun p hp => c.session.same_execWord o hp, rfl, rfl, rfl, hasked, hstarted, hdrawn, hstopped⟩

theorem perform_exec_of_not_reads {w : Word} (h : ∀ i : Instr, ¬ i.Reads w) :
    c.perform o (.exec w) = (.ended .next, c) := by
  have hexec := c.session.execWord_of_not_reads o h
  unfold perform
  simp only [hexec]
  rfl

theorem perform_step_of_fetches {w : Word} (h : c.machine.Fetches w) :
    c.perform o .step = { c with processor.pc := c.processor.pc + 2 }.perform o (.exec w) := by
  have hstep := Session.step_of_fetches (s := c.session) o h
  unfold perform
  simp only [hstep]
  rfl

/-- **A word changes and calls nothing but what its row of the table says**, whether it is executed alone or fetched by a
step.  A word that stands for no instruction changes nothing at all; a step only passes over it. -/
theorem footprint :
    w.Explains c (c.perform o (.exec w)).2 ∧
    (c.machine.Fetches w → w.Explains c (c.perform o .step).2) ∧
    ((∀ i : Instr, ¬ i.Reads w) →
      c.perform o (.exec w) = (.ended .next, c) ∧
      (c.machine.Fetches w →
        c.perform o .step = (.ended .next, { c with processor.pc := c.processor.pc + 2 }))) := by
  refine ⟨explains_exec o c w, fun hw => ?_, fun h => ⟨perform_exec_of_not_reads o c h, fun hw => ?_⟩⟩
  · have h := explains_exec o { c with processor.pc := c.processor.pc + 2 } w
    rw [← perform_step_of_fetches o c hw] at h
    refine { h with same := fun p hp => ?_ }
    refine c.session.same_step o fun w' hw' => ?_
    rwa [Machine.fetches_unique hw' hw]
  · rw [perform_step_of_fetches o c hw]
    exact perform_exec_of_not_reads o _ h

end Core

end ChipEight
