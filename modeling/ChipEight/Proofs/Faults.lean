import ChipEight.Proofs.Decoding
import ChipEight.Proofs.Spans
import ChipEight.Proofs.WellFormed

/-!
# Faults are exact and change nothing

* `Instr.fault?` : the fault of an instruction, read off the stack pointer, the index register and the operands alone.
* `Machine.Faulting` : the same for a step, as a table of words.
* `Session.step_fault_iff`, `Session.step_of_fault` : a step ends in just those faults, and then nothing has changed but
  the program counter, which is past the word if there was one to fetch.
-/

namespace ChipEight

/-! ### Instructions -/

/-- The fault of an instruction. -/
def Instr.fault? (p : Processor) : Instr → Option Fault
  | .ret => if p.sp = 0 then some (.stackUnderflow p.here) else none
  | .call _ => if 16 ≤ p.sp.toNat then some (.stackOverflow p.here) else none
  | .draw _ _ n => p.overrun? n.val
  | .digits _ => p.overrun? 3
  | .dump x | .fill x => p.overrun? (x.val + 1)
  | _ => none

namespace Session

variable {s : Session} {o : Surroundings} {i : Instr} {f : Fault}

/-- How what has this fault, or none, may end: with the fault and nothing else done, or not with a fault at all. -/
def EndsBy (s : Session) (r : Outcome × Session) : Option Fault → Prop
  | some f => r = (.fault f, s)
  | none => ∀ f, r.1 ≠ .fault f

theorem EndsBy.fault_iff {r : Outcome × Session} {e : Option Fault} (h : s.EndsBy r e) :
    r.1 = .fault f ↔ e = some f := by
  cases e with
  | none =>
    constructor
    · intro hr
      exact absurd hr (h f)
    · rintro ⟨⟩
  | some f' =>
    cases h
    constructor
    · rintro ⟨⟩
      rfl
    · rintro ⟨⟩
      rfl

theorem EndsBy.eq_of_fault {r : Outcome × Session} {e : Option Fault} (h : s.EndsBy r e) (hr : r.1 = .fault f) :
    r = (.fault f, s) := by
  rw [h.fault_iff.mp hr] at h
  exact h

theorem exec_endsBy (o : Surroundings) (s : Session) (i : Instr) :
    s.EndsBy (s.exec o i) (i.fault? s.toProcessor) := by
  cases i with
  | ret =>
    simp only [exec, Instr.fault?]
    split
    · rfl
    · split <;> rintro f ⟨⟩
  | call a =>
    simp only [exec, Instr.fault?]
    by_cases hsp : 16 ≤ s.sp.toNat
    · rw [if_pos hsp, dif_neg (Nat.not_lt.mpr hsp)]
      rfl
    · rw [if_neg hsp, dif_pos (Nat.not_le.mp hsp)]
      rintro f ⟨⟩
  | draw x y n =>
    simp only [exec, Instr.fault?, s.read_eq_overrun n.val (by omega)]
    cases s.overrun? n.val with
    | none => rintro f ⟨⟩
    | some f => rfl
  | digits x =>
    simp only [exec, Instr.fault?, s.write_eq_overrun _ (length_decimals (s.reg x)) (by decide)]
    cases s.overrun? 3 with
    | none => rintro f ⟨⟩
    | some f => rfl
  | dump x =>
    simp only [exec, Instr.fault?, s.write_eq_overrun _ (s.length_take_registers x) (by omega)]
    cases s.overrun? (x.val + 1) with
    | none => rintro f ⟨⟩
    | some f => rfl
  | fill x =>
    simp only [exec, Instr.fault?, s.read_eq_overrun (x.val + 1) (by omega)]
    cases s.overrun? (x.val + 1) with
    | none => rintro f ⟨⟩
    | some f => rfl
  | awaitKey x =>
    simp only [exec, Instr.fault?]
    split <;> rintro f ⟨⟩
  | _ => rintro f ⟨⟩

end Session

/-! ### Steps -/

/-- The processor when it has fetched a word. -/
def Processor.past (p : Processor) : Processor := { p with pc := p.pc + 2 }

theorem Processor.here_past (p : Processor) : p.past.here = p.pc := UInt16.add_sub_cancel p.pc 2

/-- The word `w` stands at the program counter, the more significant byte first. -/
def Machine.Fetches (m : Machine) (w : Word) : Prop :=
  ∃ hi lo : UInt8, m.memory[m.pc.toNat]? = some hi ∧ m.memory[m.pc.toNat + 1]? = some lo ∧
    w.toNat = 256 * hi.toNat + lo.toNat

/-- **The faults of a step**: no word to fetch, no return address, no room for another, or a span that does not lie
inside memory. -/
inductive Machine.Faulting (m : Machine) : Fault → Prop
  | fetch (h : 4096 < m.pc.toNat + 2) : Faulting m (.memoryOutOfBounds (.ofNat (m.pc.toNat + 1)))
  | ret {w : Word} (hw : m.Fetches w) (hf : w.family = 0x0) (hkk : w.kk = 0xEE) (h : m.sp = 0) :
      Faulting m (.stackUnderflow m.pc)
  | call {w : Word} (hw : m.Fetches w) (hf : w.family = 0x2) (h : m.sp = 16) : Faulting m (.stackOverflow m.pc)
  | draw {w : Word} (hw : m.Fetches w) (hf : w.family = 0xD) (h : 4096 < m.i.toNat % 4096 + w.n.val) :
      Faulting m (.memoryOutOfBounds (.ofNat (m.i.toNat % 4096 + w.n.val - 1)))
  | digits {w : Word} (hw : m.Fetches w) (hf : w.family = 0xF) (hkk : w.kk = 0x33)
      (h : 4096 < m.i.toNat % 4096 + 3) :
      Faulting m (.memoryOutOfBounds (.ofNat (m.i.toNat % 4096 + 2)))
  | dump {w : Word} (hw : m.Fetches w) (hf : w.family = 0xF) (hkk : w.kk = 0x55)
      (h : 4096 < m.i.toNat % 4096 + w.x.val + 1) :
      Faulting m (.memoryOutOfBounds (.ofNat (m.i.toNat % 4096 + w.x.val)))
  | fill {w : Word} (hw : m.Fetches w) (hf : w.family = 0xF) (hkk : w.kk = 0x65)
      (h : 4096 < m.i.toNat % 4096 + w.x.val + 1) :
      Faulting m (.memoryOutOfBounds (.ofNat (m.i.toNat % 4096 + w.x.val)))

theorem Word.toNat_ofBytes (hi lo : UInt8) : (ofBytes hi lo).toNat = 256 * hi.toNat + lo.toNat := by
  have hhi := hi.toNat_lt
  have hlo := lo.toNat_lt
  have hbase : (256 : UInt16).toNat = 256 := rfl
  unfold ofBytes
  rw [UInt16.toNat_add, UInt16.toNat_mul, UInt8.toNat_toUInt16, UInt8.toNat_toUInt16, hbase]
  omega

namespace Machine

variable {m : Machine} {w : Word} {f : Fault}

theorem fetches_iff : m.Fetches w ↔ m.memory.word m.pc = .ok w := by
  unfold Memory.word Fetches
  split
  · next hin =>
    have hlt : m.pc.toNat < Memory.size := by omega
    have hlt' : m.pc.toNat + 1 < Memory.size := by omega
    rw [Vector.getElem?_eq_getElem hlt, Vector.getElem?_eq_getElem hlt', Except.ok.injEq]
    constructor
    · rintro ⟨hi, lo, hhi, hlo, hw⟩
      cases hhi
      cases hlo
      rw [← UInt16.toNat_inj, Word.toNat_ofBytes, hw]
    · rintro rfl
      exact ⟨_, _, rfl, rfl, Word.toNat_ofBytes _ _⟩
  · next hout =>
    constructor
    · rintro ⟨hi, lo, -, hlo, -⟩
      obtain ⟨hlt, -⟩ := Vector.getElem?_eq_some_iff.mp hlo
      simp only [Memory.size] at *
      omega
    · rintro ⟨⟩

def fault? (m : Machine) : Option Fault :=
  match m.memory.word m.pc with
  | .error f => some f
  | .ok w => (Instr.ofWord? w).bind (Instr.fault? m.past)

/-- An instruction at the program counter has the faults of its rows of the table. -/
theorem faulting_of_reads {i : Instr} (hsp : m.sp ≤ 16) (hw : m.Fetches w) (hi : i.Reads w)
    (h : i.fault? m.past = some f) : m.Faulting f := by
  cases i with
  | ret =>
    obtain ⟨hf, hkk⟩ := hi
    simp only [Instr.fault?, Processor.here_past] at h
    split at h
    · next hzero =>
      cases h
      exact .ret hw hf hkk hzero
    · cases h
  | call a =>
    obtain ⟨hf, -⟩ := hi
    simp only [Instr.fault?, Processor.here_past] at h
    split at h
    · next hfull =>
      cases h
      exact .call hw hf (UInt8.toNat_inj.mp (Nat.le_antisymm hsp hfull))
    · cases h
  | draw x y n =>
    obtain ⟨hf, -, -, rfl⟩ := hi
    obtain ⟨hout, rfl⟩ := Processor.eq_of_overrun? h
    -- a sprite of no rows lies inside memory wherever it starts
    have hlt := Nat.mod_lt m.i.toNat (y := 4096) (by decide)
    have hone : 1 ≤ w.n.val := by
      have hout : 4096 < m.i.toNat % 4096 + w.n.val := hout
      omega
    rw [← Nat.add_sub_assoc hone]
    exact .draw hw hf hout
  | digits x =>
    obtain ⟨hf, hkk, -⟩ := hi
    obtain ⟨hout, rfl⟩ := Processor.eq_of_overrun? h
    exact .digits hw hf hkk hout
  | dump x =>
    obtain ⟨hf, hkk, rfl⟩ := hi
    obtain ⟨hout, rfl⟩ := Processor.eq_of_overrun? h
    exact .dump hw hf hkk hout
  | fill x =>
    obtain ⟨hf, hkk, rfl⟩ := hi
    obtain ⟨hout, rfl⟩ := Processor.eq_of_overrun? h
    exact .fill hw hf hkk hout
  | _ => cases h

theorem fault?_of_reads {i : Instr} (hw : m.Fetches w) (hi : i.Reads w) : m.fault? = i.fault? m.past := by
  unfold fault?
  simp only [fetches_iff.mp hw, Instr.ofWord?_eq_some_iff.mpr hi, Option.bind_some]

theorem faulting_of_fault? (hsp : m.sp ≤ 16) (h : m.fault? = some f) : m.Faulting f := by
  unfold fault? at h
  rcases Nat.lt_or_ge 4096 (m.pc.toNat + 2) with hout | hin
  · rw [Memory.word_of_lt m.memory hout] at h
    cases h
    exact .fetch hout
  · cases hw : m.memory.word m.pc with
    | error f' =>
      unfold Memory.word at hw
      rw [dif_pos hin] at hw
      cases hw
    | ok w =>
      rw [hw] at h
      obtain ⟨i, hi, hfault⟩ := Option.bind_eq_some_iff.mp h
      exact faulting_of_reads hsp (fetches_iff.mpr hw) (Instr.ofWord?_eq_some_iff.mp hi) hfault

theorem fault?_of_faulting (h : m.Faulting f) : m.fault? = some f := by
  cases h with
  | fetch hout =>
    unfold fault?
    rw [Memory.word_of_lt m.memory hout]
  | @ret w hw hf hkk hsp =>
    rw [fault?_of_reads (i := .ret) hw ⟨hf, hkk⟩, ← m.here_past]
    exact if_pos hsp
  | @call w hw hf hsp =>
    rw [fault?_of_reads (i := .call w.addr) hw ⟨hf, rfl⟩, ← m.here_past]
    refine if_pos ?_
    show 16 ≤ m.sp.toNat
    rw [hsp]
    decide
  | @draw w hw hf hout =>
    have hlt := Nat.mod_lt m.i.toNat (y := 4096) (by decide)
    rw [fault?_of_reads (i := .draw w.x w.y w.n) hw ⟨hf, rfl, rfl, rfl⟩, Nat.add_sub_assoc (by omega)]
    exact if_pos hout
  | @digits w hw hf hkk hout =>
    rw [fault?_of_reads (i := .digits w.x) hw ⟨hf, hkk, rfl⟩]
    exact if_pos hout
  | @dump w hw hf hkk hout =>
    rw [fault?_of_reads (i := .dump w.x) hw ⟨hf, hkk, rfl⟩]
    exact if_pos hout
  | @fill w hw hf hkk hout =>
    rw [fault?_of_reads (i := .fill w.x) hw ⟨hf, hkk, rfl⟩]
    exact if_pos hout

/-- The table lists the faults of a step. -/
theorem fault?_eq_some_iff (hsp : m.sp ≤ 16) : m.fault? = some f ↔ m.Faulting f :=
  ⟨faulting_of_fault? hsp, fault?_of_faulting⟩

end Machine

def Processor.fetched (p : Processor) : Processor := if 4096 < p.pc.toNat + 2 then p else p.past

namespace Session

theorem execWord_endsBy (o : Surroundings) (s : Session) (w : Word) :
    s.EndsBy (s.execWord o w) ((Instr.ofWord? w).bind (Instr.fault? s.toProcessor)) := by
  unfold execWord
  cases Instr.ofWord? w with
  | none => rintro f ⟨⟩
  | some i => exact exec_endsBy o s i

theorem step_endsBy (o : Surroundings) (s : Session) :
    EndsBy { s with toProcessor := s.toProcessor.fetched } (s.step o) s.toMachine.fault? := by
  unfold step Machine.fault? Processor.fetched
  rcases Nat.lt_or_ge Memory.size (s.pc.toNat + 2) with hout | hin
  · rw [Memory.word_of_lt s.memory hout, if_pos hout]
    rfl
  · have hword : s.memory.word s.pc = .ok (.ofBytes s.memory[s.pc.toNat] s.memory[s.pc.toNat + 1]) := dif_pos hin
    rw [hword, if_neg (Nat.not_lt.mpr hin)]
    exact execWord_endsBy o { s with pc := s.pc + 2 } _

end Session

/-! ### Cores -/

namespace Core

/-- **Faults are exact and change nothing.**  With the stack pointer within the stack, a step always ends, and it ends in
a fault just when the table has that fault.  Then registers, memory, stack, timers, screen and run state are what they
were and no call was made; only the program counter is past the word, unless there was no word to fetch. -/
theorem step_faults {c : Core} (h : c.machine.sp ≤ 16) (o : Surroundings) :
    (c.perform o .step).1 ≠ .ended .breakdown ∧
    ∀ f, ((c.perform o .step).1 = .ended (.fault f) ↔ c.machine.Faulting f) ∧
      ((c.perform o .step).1 = .ended (.fault f) →
        (c.perform o .step).2 = { c with
          processor.pc := if 4096 < c.processor.pc.toNat + 2 then c.processor.pc else c.processor.pc + 2 }) := by
  have hends := Session.step_endsBy o c.session
  refine ⟨perform_ne_breakdown o h .step, fun f => ⟨?_, fun hf => ?_⟩⟩
  · rw [← Machine.fault?_eq_some_iff h]
    refine Iff.trans ?_ hends.fault_iff
    exact Answer.ended.injEq .. ▸ Iff.rfl
  · have hstep := hends.eq_of_fault (Answer.ended.inj hf)
    have hcore : (c.perform o .step).2 = c.resume (c.session.step o).2 := rfl
    rw [hcore, hstep]
    by_cases hout : 4096 < c.processor.pc.toNat + 2
    · rw [if_pos hout, show c.session.toProcessor.fetched = c.processor from if_pos hout]
      rfl
    · rw [if_neg hout, show c.session.toProcessor.fetched = c.processor.past from if_neg hout]
      rfl

/-- A core with every return address in use, whose memory is full of calls. -/
def brimful : Core where
  processor := { Processor.powerOn with pc := 0x0300, sp := 16, memory := .replicate Memory.size 0x22 }

theorem step_faults_brimful :
    brimful.machine.sp ≤ 16 ∧
      brimful.perform ⟨fun _ => none, fun _ => 0⟩ .step =
        (.ended (.fault (.stackOverflow 0x0300)), { brimful with processor.pc := 0x0302 }) := by
  have hsp : brimful.machine.sp ≤ 16 := by decide
  have hfetches : brimful.machine.Fetches 0x2222 := by
    refine ⟨0x22, 0x22, ?_, ?_, rfl⟩
    · exact Vector.getElem?_eq_some_iff.mpr ⟨by decide, Vector.getElem_replicate _⟩
    · exact Vector.getElem?_eq_some_iff.mpr ⟨by decide, Vector.getElem_replicate _⟩
  obtain ⟨hiff, hcore⟩ := (step_faults hsp ⟨fun _ => none, fun _ => 0⟩).2 (.stackOverflow 0x0300)
  have hfault := hiff.mpr (.call hfetches (by decide) rfl)
  exact ⟨hsp, Prod.ext hfault (hcore hfault)⟩

end Core

end ChipEight
