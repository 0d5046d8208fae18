import ChipEight.Proofs.Glyphs

/-!
# An index that never wraps

The index register is a word of sixteen bits of which twelve address memory, so it can wrap without anyone noticing.  To
see that, it is compared with an index that is a natural number.

* `Wide` : a core with such an index, which addresses memory by what the index leaves when it is divided by `4096`.
* `Session.exec_pointAt` : no instruction sees more of the index register than that.
* `Wide.matches_perform` : an operation leaves both cores alike, and the register with the last sixteen bits of the
  index.
* `Core.wrap_unseen` : so do any operations one after the other.
-/

namespace ChipEight

namespace Session

def pointAt (s : Session) (j : UInt16) : Session := { s with i := j }

section PointAt

variable (s : Session) (j : UInt16) (x : Digit)

@[simp] theorem v_pointAt : (s.pointAt j).v = s.v := rfl

@[simp] theorem reg_pointAt : (s.pointAt j).reg x = s.reg x := rfl

@[simp] theorem sp_pointAt : (s.pointAt j).sp = s.sp := rfl

@[simp] theorem stack_pointAt : (s.pointAt j).stack = s.stack := rfl

@[simp] theorem memory_pointAt : (s.pointAt j).memory = s.memory := rfl

@[simp] theorem tally_pointAt : (s.pointAt j).tally = s.tally := rfl

end PointAt

end Session

def Core.pointAt (c : Core) (j : UInt16) : Core := { c with processor.i := j }

/-! ### Natural numbers -/

/-- What an instruction makes of an index that is a natural number. -/
def Instr.index (p : Processor) (k : Nat) : Instr → Nat
  | .setIndex a => a.toNat
  | .addIndex x => k + (p.reg x).toNat
  | .glyph x => Glyph.height * (Glyph.digit (p.reg x)).val
  | _ => k

def Word.index (p : Processor) (k : Nat) (w : Word) : Nat :=
  match Instr.ofWord? w with
  | some i => i.index p k
  | none => k

/-- What an operation makes of such an index.  A machine that is restored brings its own index along. -/
def Core.Op.index (p : Processor) (k : Nat) : Core.Op → Nat
  | .step =>
    match p.memory.word p.pc with
    | .ok w => w.index p k
    | .error _ => k
  | .exec w => w.index p k
  | .tick | .reset => k
  | .restore m => m.i.toNat

/-- A core and an index that is a natural number.  The index register of the core itself is not used. -/
structure Wide where
  core : Core
  index : Nat

namespace Wide

def ofCore (c : Core) : Wide := { core := c, index := c.processor.i.toNat }

def pointed (w : Wide) : Core := w.core.pointAt (.ofNat (w.index % 4096))

def perform (o : Surroundings) (w : Wide) (op : Core.Op) : Core.Answer × Wide :=
  let (a, core) := w.pointed.perform o op
  (a, { core, index := op.index w.core.processor w.index })

def after (o : Surroundings) (w : Wide) (ops : List Core.Op) : Wide := ops.foldl (fun w op => (w.perform o op).2) w

end Wide

/-! ### The register keeps the last sixteen bits -/

section Index

variable {p : Processor} {k k' : Nat}

/-- What is made of an index depends on its last sixteen bits only, as far as the last sixteen bits go. -/
theorem Instr.index_mod (h : k % 65536 = k' % 65536) (i : Instr) : i.index p k % 65536 = i.index p k' % 65536 := by
  cases i with
  | setIndex a | glyph x => rfl
  | addIndex x =>
    simp only [index]
    omega
  | _ => exact h

theorem Word.index_mod (h : k % 65536 = k' % 65536) (w : Word) : w.index p k % 65536 = w.index p k' % 65536 := by
  unfold index
  cases Instr.ofWord? w with
  | none => exact h
  | some i => exact i.index_mod h

theorem Core.Op.index_mod (h : k % 65536 = k' % 65536) (op : Core.Op) :
    op.index p k % 65536 = op.index p k' % 65536 := by
  cases op with
  | step =>
    simp only [index]
    cases p.memory.word p.pc with
    | error f => exact h
    | ok w => exact w.index_mod h
  | exec w => exact w.index_mod h
  | tick | reset => exact h
  | restore m => rfl

end Index

namespace Session

variable {o : Surroundings} {s : Session} {j : UInt16}

theorem toNat_index_exec (o : Surroundings) (s : Session) (i : Instr) :
    (s.exec o i).2.i.toNat = i.index s.toProcessor s.i.toNat % 65536 := by
  cases i with
  | setIndex a => exact a.toNat_mod_size.symm
  | addIndex x =>
    show (s.i + (s.reg x).toUInt16).toNat = (s.i.toNat + (s.reg x).toNat) % 65536
    rw [UInt16.toNat_add, UInt8.toNat_toUInt16]
  | glyph x =>
    refine (UInt16.toNat_mod_size _).symm.trans ?_
    exact congrArg (· % 65536) (Glyph.toNat_address (s.reg x))
  | ret =>
    simp only [exec]
    split
    · exact s.i.toNat_mod_size.symm
    · split <;> exact s.i.toNat_mod_size.symm
  | skipEqByte | skipNeByte | skipEq | skipNe | skipHeld | skipNotHeld =>
    simp only [exec, passIf_eq]
    exact s.i.toNat_mod_size.symm
  | call | awaitKey | draw | digits | dump | fill =>
    simp only [exec]
    split <;> exact s.i.toNat_mod_size.symm
  | _ => exact s.i.toNat_mod_size.symm

theorem toNat_index_execWord (o : Surroundings) (s : Session) (w : Word) :
    (s.execWord o w).2.i.toNat = w.index s.toProcessor s.i.toNat % 65536 := by
  unfold execWord Word.index
  cases Instr.ofWord? w with
  | none => exact s.i.toNat_mod_size.symm
  | some i => exact toNat_index_exec o s i

/-! ### Instructions see twelve bits -/

theorem address_pointAt (h : j % 0x1000 = s.i % 0x1000) : (s.pointAt j).address = s.address :=
  congrArg UInt16.toUInt64 h

/-- An outcome and a session, with the index register of the session pointed elsewhere. -/
def pointEnd (k : UInt16) (r : Outcome × Session) : Outcome × Session := (r.1, r.2.pointAt k)

/-- No instruction sees more of the index register than the twelve bits that address memory. -/
theorem exec_pointAt (o : Surroundings) (h : j % 0x1000 = s.i % 0x1000) (i : Instr) (k : UInt16) :
    pointEnd k ((s.pointAt j).exec o i) = pointEnd k (s.exec o i) := by
  have haddress := address_pointAt h
  cases i with
  -- the two conditions are the same only up to unfolding, so each of them is decided by itself
  | ret =>
    by_cases hzero : s.sp = 0
    · have hpointed : (s.pointAt j).sp = 0 := hzero
      simp only [exec, if_pos hzero, if_pos hpointed]
      rfl
    · have hpointed : (s.pointAt j).sp ≠ 0 := hzero
      simp only [exec, if_neg hzero, if_neg hpointed]
      rw [sp_pointAt, stack_pointAt]
      cases s.stack[(s.sp - 1).toNat]? <;> rfl
  | call a =>
    by_cases hroom : s.sp.toNat < 16
    · have hpointed : (s.pointAt j).sp.toNat < 16 := hroom
      simp only [exec, dif_pos hroom, dif_pos hpointed]
      rfl
    · have hpointed : ¬ (s.pointAt j).sp.toNat < 16 := hroom
      simp only [exec, dif_neg hroom, dif_neg hpointed]
      rfl
  | skipEqByte | skipNeByte | skipEq | skipNe | skipHeld | skipNotHeld =>
    simp only [exec, passIf_eq]
    rfl
  | awaitKey x =>
    simp only [exec, tally_pointAt]
    split <;> rfl
  | draw | digits | dump | fill =>
    simp only [exec, haddress, memory_pointAt, reg_pointAt, v_pointAt]
    split <;> rfl
  | _ => rfl

theorem execWord_pointAt (o : Surroundings) (h : j % 0x1000 = s.i % 0x1000) (w : Word) (k : UInt16) :
    pointEnd k ((s.pointAt j).execWord o w) = pointEnd k (s.execWord o w) := by
  unfold execWord
  cases Instr.ofWord? w with
  | none => rfl
  | some i => exact exec_pointAt o h i k

theorem step_pointAt (o : Surroundings) (h : j % 0x1000 = s.i % 0x1000) (k : UInt16) :
    pointEnd k ((s.pointAt j).step o) = pointEnd k (s.step o) := by
  have hword : (s.pointAt j).memory.word (s.pointAt j).pc = s.memory.word s.pc := rfl
  unfold step
  rw [hword]
  cases s.memory.word s.pc with
  | error f => rfl
  | ok w => exact execWord_pointAt (s := { s with pc := s.pc + 2 }) o h w k

theorem toNat_index_step (o : Surroundings) (s : Session) :
    (s.step o).2.i.toNat = Core.Op.index s.toProcessor s.i.toNat .step % 65536 := by
  simp only [step, Core.Op.index]
  cases s.memory.word s.pc with
  | error f => exact s.i.toNat_mod_size.symm
  | ok w => exact toNat_index_execWord o { s with pc := s.pc + 2 } w

end Session

/-! ### Operations -/

namespace Core

variable {o : Surroundings} {c : Core} {j : UInt16}

/-- No operation sees more of the index register than the twelve bits that address memory. -/
theorem perform_pointAt (o : Surroundings) (h : j % 0x1000 = c.processor.i % 0x1000) (op : Op) (k : UInt16) :
    ((c.pointAt j).perform o op).1 = (c.perform o op).1 ∧
      ((c.pointAt j).perform o op).2.pointAt k = (c.perform o op).2.pointAt k := by
  cases op with
  | step =>
    obtain ⟨houtcome, hsession⟩ := Prod.ext_iff.mp (Session.step_pointAt (s := c.session) o h k)
    exact ⟨congrArg Answer.ended houtcome, congrArg c.resume hsession⟩
  | exec w =>
    obtain ⟨houtcome, hsession⟩ := Prod.ext_iff.mp (Session.execWord_pointAt (s := c.session) o h w k)
    exact ⟨congrArg Answer.ended houtcome, congrArg c.resume hsession⟩
  | tick | reset | restore m => exact ⟨rfl, rfl⟩

theorem toNat_index_perform (o : Surroundings) (c : Core) (op : Op) :
    (c.perform o op).2.processor.i.toNat = op.index c.processor c.processor.i.toNat % 65536 := by
  cases op with
  | step => exact Session.toNat_index_step o c.session
  | exec w => exact Session.toNat_index_execWord o c.session w
  | tick | reset => exact c.processor.i.toNat_mod_size.symm
  | restore m => exact m.i.toNat_mod_size.symm

end Core

namespace Wide

variable {o : Surroundings} {w : Wide} {c : Core}

/-- Both cores are alike, index registers apart, and the one register keeps the last sixteen bits of the index. -/
structure Matches (w : Wide) (c : Core) : Prop where
  core_eq : w.core.pointAt c.processor.i = c
  index_eq : c.processor.i.toNat = w.index % 65536

theorem matches_ofCore (c : Core) : (ofCore c).Matches c := ⟨rfl, c.processor.i.toNat_mod_size.symm⟩

theorem Matches.address_eq (h : w.Matches c) : (UInt16.ofNat (w.index % 4096)) % 0x1000 = c.processor.i % 0x1000 := by
  have hindex := h.index_eq
  have hspan : (0x1000 : UInt16).toNat = 4096 := rfl
  rw [← UInt16.toNat_inj, UInt16.toNat_mod, UInt16.toNat_mod, UInt16.toNat_ofNat', hspan, hindex]
  omega

/-- Every operation has the same answer and leaves both cores alike. -/
theorem matches_perform (o : Surroundings) (h : w.Matches c) (op : Core.Op) :
    (w.perform o op).1 = (c.perform o op).1 ∧ (w.perform o op).2.Matches (c.perform o op).2 := by
  have hpointed : w.pointed = c.pointAt (.ofNat (w.index % 4096)) := by
    rw [← h.core_eq]
    rfl
  have hindex : op.index w.core.processor w.index = op.index c.processor w.index := by
    rw [← h.core_eq]
    cases op <;> rfl
  obtain ⟨hanswer, hcore⟩ := Core.perform_pointAt o h.address_eq op (c.perform o op).2.processor.i
  rw [← hpointed] at hanswer hcore
  refine ⟨hanswer, hcore, ?_⟩
  rw [Core.toNat_index_perform]
  show _ = op.index w.core.processor w.index % 65536
  rw [hindex]
  refine op.index_mod ?_
  rw [h.index_eq, Nat.mod_mod]

theorem matches_after (o : Surroundings) (h : w.Matches c) (ops : List Core.Op) :
    (w.after o ops).Matches (c.after o ops) := by
  induction ops generalizing w c with
  | nil => exact h
  | cons op ops ih => exact ih (matches_perform o h op).2

end Wide

/-- **No one sees the index register wrap.**  From any core on, let one machine work with the index register as it is, and
another one with an index that is a natural number, to which registers are added exactly.  After any operations, one
after the other, in the same surroundings, everything but the index is the same in both, the index register is what the
index leaves when it is divided by `65536`, and every next operation ends the same. -/
theorem Core.wrap_unseen (o : Surroundings) (c : Core) (ops : List Core.Op) :
    ((Wide.ofCore c).after o ops).core.pointAt (c.after o ops).processor.i = c.after o ops ∧
      (c.after o ops).processor.i.toNat = ((Wide.ofCore c).after o ops).index % 65536 ∧
      ∀ op, (((Wide.ofCore c).after o ops).perform o op).1 = ((c.after o ops).perform o op).1 := by
  have hmatches := Wide.matches_after o (Wide.matches_ofCore c) ops
  exact ⟨hmatches.core_eq, hmatches.index_eq, fun op => (Wide.matches_perform o hmatches op).1⟩

end ChipEight
