import ChipEight.Proofs.Footprint
import ChipEight.Proofs.Runs

/-!
# Registers in memory

A program saves registers in memory and takes them back, and it writes a byte in decimal.

* `Core.Enacts` : the operation executes a word, alone or because it fetches it.
* `Core.Computes` : what a program may do in between with words of the families `6`, `7` and `8`.
* `Word.Dumps`, `Word.Fills`, `Word.Spells` : where registers, bytes and digits go.
* `Core.perform_dump`, `Core.perform_fill`, `Core.perform_digits` : inside memory, they go there.
* `Core.dumps_and_fills` : registers that were saved come back, and so do bytes that were loaded.
-/

namespace ChipEight

/-! ### Blocks -/

namespace Bytes

variable {n : Nat}

theorem getElem?_put (m : Bytes n) (start : Nat) (bytes : List UInt8) {j : Nat} (h : start + bytes.length ≤ n)
    (hj : j < bytes.length) : (m.put start bytes)[start + j]? = bytes[j]? := by
  have hlt : start + j < n := by omega
  rw [Vector.getElem?_eq_getElem hlt, getElem_put _ _ _ _ hlt, if_pos (Nat.le_add_right start j), Nat.add_sub_cancel_left,
    List.getElem?_eq_getElem hj]
  rfl

theorem getElem?_slice (m : Bytes n) (start len : Nat) {j : Nat} (h : start + len ≤ n) (hj : j < len) :
    (m.slice start len)[j]? = m[start + j]? := by
  have hlen : j < (m.slice start len).length := by
    rw [length_slice]
    omega
  rw [List.getElem?_eq_getElem hlen, Vector.getElem?_eq_getElem (by omega), getElem_slice m hlen]

theorem ext {m m' : Bytes n} (h : ∀ a : Nat, m[a]? = m'[a]?) : m = m' := by
  refine Vector.ext fun a ha => ?_
  have hbyte := h a
  rwa [Vector.getElem?_eq_getElem ha, Vector.getElem?_eq_getElem ha, Option.some.injEq] at hbyte

end Bytes

theorem Processor.getElem?_registers (p : Processor) (r : Digit) : p.v.toList[r.val]? = some (p.reg r) := by
  rw [Vector.getElem?_toList, Vector.getElem?_eq_getElem r.isLt]
  rfl

/-! ### Words -/

namespace Word

/-- Between two processors the word has written the registers up to its own to memory. -/
structure Dumps (w : Word) (p p' : Processor) : Prop where
  byte (r : Digit) : r ≤ w.x → p'.memory[p.base + r.val]? = some (p.reg r)
  outside (a : Nat) : a < p.base ∨ p.base + w.x.val < a → p'.memory[a]? = p.memory[a]?
  reg (r : Digit) : p'.reg r = p.reg r
  index : p'.i = p.i

/-- Between two processors the word has read the registers up to its own from memory. -/
structure Fills (w : Word) (p p' : Processor) : Prop where
  byte (r : Digit) : r ≤ w.x → p.memory[p.base + r.val]? = some (p'.reg r)
  higher (r : Digit) : w.x < r → p'.reg r = p.reg r
  memory : p'.memory = p.memory
  index : p'.i = p.i

/-- Between two processors the word has written its register to memory in three decimal digits. -/
structure Spells (w : Word) (p p' : Processor) : Prop where
  digits : ∃ h t u : UInt8, p'.memory[p.base]? = some h ∧ p'.memory[p.base + 1]? = some t ∧
    p'.memory[p.base + 2]? = some u ∧ h.toNat ≤ 9 ∧ t.toNat ≤ 9 ∧ u.toNat ≤ 9 ∧
    100 * h.toNat + 10 * t.toNat + u.toNat = (p.reg w.x).toNat
  outside (a : Nat) : a < p.base ∨ p.base + 2 < a → p'.memory[a]? = p.memory[a]?
  reg (r : Digit) : p'.reg r = p.reg r
  index : p'.i = p.i

end Word

theorem Session.decimals_eq (b : UInt8) : ∃ h t u : UInt8, decimals b = [h, t, u] ∧ h.toNat ≤ 9 ∧ t.toNat ≤ 9 ∧
    u.toNat ≤ 9 ∧ 100 * h.toNat + 10 * t.toNat + u.toNat = b.toNat := by
  have hlt := b.toNat_lt
  refine ⟨b / 100, b / 10 % 10, b % 10, rfl, ?_⟩
  simp only [UInt8.toNat_div, UInt8.toNat_mod, UInt8.reduceToNat]
  omega

namespace Word

variable {w : Word} {p p' : Processor}

theorem dumps_put (hroom : p.base + w.x.val + 1 ≤ 4096)
    (hmemory : p'.memory = p.memory.put p.base (p.v.toList.take (w.x.val + 1))) (hv : p'.v = p.v) (hi : p'.i = p.i) :
    w.Dumps p p' := by
  have hlen := p.length_take_registers w.x
  refine ⟨fun r hr => ?_, fun a ha => ?_, fun r => congrArg (·.get r) hv, hi⟩
  · have hlt : r.val < w.x.val + 1 := Nat.lt_succ_of_le hr
    rw [hmemory, Bytes.getElem?_put p.memory _ _ (by rw [hlen]; exact hroom) (by rw [hlen]; exact hlt),
      List.getElem?_take_of_lt hlt, p.getElem?_registers]
  · rw [hmemory]
    refine Bytes.getElem?_put_of_outside p.memory ?_
    rw [hlen]
    omega

theorem fills_put (hroom : p.base + w.x.val + 1 ≤ 4096) (hmemory : p'.memory = p.memory)
    (hv : p'.v = Bytes.put p.v 0 (p.memory.slice p.base (w.x.val + 1))) (hi : p'.i = p.i) : w.Fills p p' := by
  have hlen : (p.memory.slice p.base (w.x.val + 1)).length = w.x.val + 1 := by
    rw [Bytes.length_slice, ← Nat.add_assoc, Nat.min_eq_left hroom]
    omega
  have hreg (r : Digit) : some (p'.reg r) = (Bytes.put p.v 0 (p.memory.slice p.base (w.x.val + 1)))[r.val]? := by
    rw [← hv, Vector.getElem?_eq_getElem r.isLt]
    rfl
  refine ⟨fun r hr => ?_, fun r hr => ?_, hmemory, hi⟩
  · have hlt : r.val < w.x.val + 1 := Nat.lt_succ_of_le hr
    have hput := Bytes.getElem?_put p.v 0 (p.memory.slice p.base (w.x.val + 1)) (j := r.val) (by omega) (by omega)
    rw [Nat.zero_add, Bytes.getElem?_slice p.memory p.base (w.x.val + 1) hroom hlt] at hput
    rw [hreg, hput]
  · have hlt : w.x.val < r.val := hr
    have hout : (Bytes.put p.v 0 (p.memory.slice p.base (w.x.val + 1)))[r.val]? = p.v[r.val]? :=
      Bytes.getElem?_put_of_outside p.v (by omega)
    have hsame := (hreg r).trans hout
    rwa [Vector.getElem?_eq_getElem r.isLt, Option.some.injEq] at hsame

theorem spells_put (hroom : p.base + 3 ≤ 4096)
    (hmemory : p'.memory = p.memory.put p.base (Session.decimals (p.reg w.x))) (hv : p'.v = p.v) (hi : p'.i = p.i) :
    w.Spells p p' := by
  obtain ⟨h, t, u, hdecimals, hh, ht, hu, hsum⟩ := Session.decimals_eq (p.reg w.x)
  rw [hdecimals] at hmemory
  have hbyte {j : Nat} (hj : j < 3) : p'.memory[p.base + j]? = [h, t, u][j]? := by
    rw [hmemory]
    exact Bytes.getElem?_put p.memory _ _ hroom hj
  refine ⟨⟨h, t, u, hbyte (j := 0) (by decide), hbyte (j := 1) (by decide), hbyte (j := 2) (by decide), hh, ht, hu,
    hsum⟩, fun a ha => ?_, fun r => congrArg (·.get r) hv, hi⟩
  rw [hmemory]
  refine Bytes.getElem?_put_of_outside p.memory ?_
  show a < p.base ∨ p.base + 3 ≤ a
  omega

/-- **Registers that were saved come back.**  A dump of the registers up to `x`, whatever the program computes after it, and
a fill of registers that were dumped: these have the values again that they had at the dump, and the others have the ones
that they had at the fill. -/
theorem Dumps.fills {p₁ p₂ p₃ : Processor} {w' : Word} (h : w.Dumps p p₁)
    (hsame : p₂.memory = p₁.memory ∧ p₂.i = p₁.i) (h' : w'.Fills p₂ p₃) (hx : w'.x ≤ w.x) (r : Digit) :
    p₃.reg r = if r ≤ w'.x then p.reg r else p₂.reg r := by
  by_cases hr : r ≤ w'.x
  · have hbase : p₂.base = p.base := congrArg (·.toNat % 4096) (hsame.2.trans h.index)
    have hbyte := h'.byte r hr
    rw [hbase, hsame.1, h.byte r (Fin.le_trans hr hx), Option.some.injEq] at hbyte
    rw [if_pos hr, hbyte]
  · rw [if_neg hr]
    exact h'.higher r (Fin.not_le.mp hr)

/-- **Bytes that were loaded are put back.** -/
theorem Fills.dumps {p₁ p₂ : Processor} {w' : Word} (h : w.Fills p p₁) (h' : w'.Dumps p₁ p₂) (hx : w'.x = w.x) :
    p₂.memory = p.memory := by
  have hbase : p₁.base = p.base := congrArg (·.toNat % 4096) h.index
  refine Bytes.ext fun a => ?_
  by_cases ha : a < p₁.base ∨ p₁.base + w'.x.val < a
  · rw [h'.outside a ha, h.memory]
  · obtain ⟨r, hr⟩ : ∃ r : Digit, a = p₁.base + r.val := ⟨⟨a - p₁.base, by omega⟩, by simp; omega⟩
    have hle : r ≤ w'.x := by
      show r.val ≤ w'.x.val
      omega
    rw [hr, h'.byte r hle, hbase, h.byte r (hx ▸ hle)]

end Word

/-! ### Operations -/

namespace Core

/-- The operation executes this word, alone or because it fetches it. -/
def Enacts (c : Core) (op : Op) (w : Word) : Prop := op = .exec w ∨ op = .step ∧ c.machine.Fetches w

/-- What a program comes to that sets registers and computes with them, while the timers tick. -/
inductive Computes (o : Surroundings) (c : Core) : Core → Prop
  | start : Computes o c c
  | word {c' : Core} {op : Op} {w : Word} (h : Computes o c c') (hw : c'.Enacts op w)
      (hf : w.family = 0x6 ∨ w.family = 0x7 ∨ w.family = 0x8) : Computes o c (c'.perform o op).2
  | tick {c' : Core} (h : Computes o c c') : Computes o c (c'.perform o .tick).2

variable {o : Surroundings} {c c' : Core} {op : Op} {w : Word}

theorem Enacts.perform_eq (h : c.Enacts op w) (o : Surroundings) :
    ∃ pc, c.perform o op = { c with processor.pc := pc }.perform o (.exec w) := by
  rcases h with rfl | ⟨rfl, hw⟩
  · exact ⟨c.processor.pc, rfl⟩
  · exact ⟨c.processor.pc + 2, perform_step_of_fetches o c hw⟩

theorem Enacts.same (h : c.Enacts op w) (o : Surroundings) {p : Part} (hp : ¬ w.MayChange c.machine p) :
    p.Same c.machine (c.perform o op).2.machine := by
  rcases h with rfl | ⟨rfl, hw⟩
  · exact c.session.same_execWord o hp
  · refine c.session.same_step o fun w' hw' => ?_
    rwa [Machine.fetches_unique hw' hw]

/-- Computing leaves memory and the index register alone. -/
theorem Computes.same (h : c.Computes o c') : c'.processor.memory = c.processor.memory ∧ c'.processor.i = c.processor.i := by
  induction h with
  | start => exact ⟨rfl, rfl⟩
  | tick _ ih => exact ih
  | @word c' op w _ hw hf ih =>
    have hnot : w.family ≠ 0xF ∧ w.family ≠ 0xA := by
      rcases hf with hf | hf | hf <;> rw [hf] <;> decide
    have hmemory : (c'.perform o op).2.processor.memory = c'.processor.memory :=
      Bytes.ext fun a => hw.same o (p := .byte a) fun hmay => hnot.1 hmay.1
    have hindex : (c'.perform o op).2.processor.i = c'.processor.i := by
      refine hw.same o (p := .index) fun hmay => ?_
      rcases hmay with hA | ⟨hF, -⟩
      · exact hnot.2 hA
      · exact hnot.1 hF
    exact ⟨hmemory.trans ih.1, hindex.trans ih.2⟩

theorem perform_dump (o : Surroundings) (c : Core) (hf : w.family = 0xF) (hkk : w.kk = 0x55)
    (hroom : c.processor.base + w.x.val + 1 ≤ 4096) :
    c.perform o (.exec w) = (.ended .next, { c with
      processor.memory := c.processor.memory.put c.processor.base (c.processor.v.toList.take (w.x.val + 1)) }) := by
  have hover : c.session.overrun? (w.x.val + 1) = none := if_neg (Nat.not_lt.mpr hroom)
  have hbase : c.session.address.toNat = c.processor.base := c.session.toNat_address
  have hexec := c.session.execWord_of_reads o (i := .dump w.x) ⟨hf, hkk, rfl⟩
  simp only [Session.exec, c.session.write_eq_overrun _ (c.session.length_take_registers w.x) (by omega), hover,
    hbase] at hexec
  unfold perform
  simp only [hexec]
  rfl

theorem perform_fill (o : Surroundings) (c : Core) (hf : w.family = 0xF) (hkk : w.kk = 0x65)
    (hroom : c.processor.base + w.x.val + 1 ≤ 4096) :
    c.perform o (.exec w) = (.ended .next, { c with
      processor.v := Bytes.put c.processor.v 0 (c.processor.memory.slice c.processor.base (w.x.val + 1)) }) := by
  have hover : c.session.overrun? (w.x.val + 1) = none := if_neg (Nat.not_lt.mpr hroom)
  have hbase : c.session.address.toNat = c.processor.base := c.session.toNat_address
  have hexec := c.session.execWord_of_reads o (i := .fill w.x) ⟨hf, hkk, rfl⟩
  simp only [Session.exec, c.session.read_eq_overrun (w.x.val + 1) (by omega), hover, hbase] at hexec
  unfold perform
  simp only [hexec]
  rfl

theorem perform_digits (o : Surroundings) (c : Core) (hf : w.family = 0xF) (hkk : w.kk = 0x33)
    (hroom : c.processor.base + 3 ≤ 4096) :
    c.perform o (.exec w) = (.ended .next, { c with
      processor.memory := c.processor.memory.put c.processor.base (Session.decimals (c.processor.reg w.x)) }) := by
  have hover : c.session.overrun? 3 = none := if_neg (Nat.not_lt.mpr hroom)
  have hbase : c.session.address.toNat = c.processor.base := c.session.toNat_address
  have hexec := c.session.execWord_of_reads o (i := .digits w.x) ⟨hf, hkk, rfl⟩
  simp only [Session.exec, c.session.write_eq_overrun _ (Session.length_decimals (c.session.reg w.x)) (by decide),
    hover, hbase] at hexec
  unfold perform
  simp only [hexec]
  rfl

/-- **Registers are dumped** where the index register points, if they fit. -/
theorem Enacts.dumps (h : c.Enacts op w) (o : Surroundings) (hf : w.family = 0xF) (hkk : w.kk = 0x55)
    (hroom : c.processor.base + w.x.val + 1 ≤ 4096) :
    (c.perform o op).1 = .ended .next ∧ w.Dumps c.processor (c.perform o op).2.processor := by
  obtain ⟨pc, hperform⟩ := h.perform_eq o
  rw [hperform, perform_dump o { c with processor.pc := pc } hf hkk hroom]
  exact ⟨rfl, Word.dumps_put hroom rfl rfl rfl⟩

/-- **Registers are filled** from where the index register points, if that is inside memory. -/
theorem Enacts.fills (h : c.Enacts op w) (o : Surroundings) (hf : w.family = 0xF) (hkk : w.kk = 0x65)
    (hroom : c.processor.base + w.x.val + 1 ≤ 4096) :
    (c.perform o op).1 = .ended .next ∧ w.Fills c.processor (c.perform o op).2.processor := by
  obtain ⟨pc, hperform⟩ := h.perform_eq o
  rw [hperform, perform_fill o { c with processor.pc := pc } hf hkk hroom]
  exact ⟨rfl, Word.fills_put hroom rfl rfl rfl⟩

/-- **A register is spelled** in decimal where the index register points, if there is room for three digits. -/
theorem Enacts.spells (h : c.Enacts op w) (o : Surroundings) (hf : w.family = 0xF) (hkk : w.kk = 0x33)
    (hroom : c.processor.base + 3 ≤ 4096) :
    (c.perform o op).1 = .ended .next ∧ w.Spells c.processor (c.perform o op).2.processor := by
  obtain ⟨pc, hperform⟩ := h.perform_eq o
  rw [hperform, perform_digits o { c with processor.pc := pc } hf hkk hroom]
  exact ⟨rfl, Word.spells_put hroom rfl rfl rfl⟩

/-- **Dumps and fills undo each other, and decimals are exact.**  Where there is room for it in memory:
registers that a word dumps come back with a fill of as many or fewer, whatever the program computes in between, and
the other registers stay as they are then; bytes that fill registers are the ones that a dump puts back; and the three
digits of a register make up its value.  The index register stays, and so do the bytes beside those that are written. -/
theorem dumps_and_fills (o : Surroundings) (h : c.Enacts op w) (hf : w.family = 0xF) :
    (w.kk = 0x55 → c.processor.base + w.x.val + 1 ≤ 4096 →
      (c.perform o op).1 = .ended .next ∧ w.Dumps c.processor (c.perform o op).2.processor ∧
        ∀ c' op' w', (c.perform o op).2.Computes o c' → c'.Enacts op' w' → w'.family = 0xF → w'.kk = 0x65 → w'.x ≤ w.x →
          (c'.perform o op').1 = .ended .next ∧ w'.Fills c'.processor (c'.perform o op').2.processor ∧
            ∀ r, (c'.perform o op').2.processor.reg r = if r ≤ w'.x then c.processor.reg r else c'.processor.reg r) ∧
    (w.kk = 0x65 → c.processor.base + w.x.val + 1 ≤ 4096 →
      (c.perform o op).1 = .ended .next ∧ w.Fills c.processor (c.perform o op).2.processor ∧
        ∀ op' w', (c.perform o op).2.Enacts op' w' → w'.family = 0xF → w'.kk = 0x55 → w'.x = w.x →
          ((c.perform o op).2.perform o op').1 = .ended .next ∧
            ((c.perform o op).2.perform o op').2.processor.memory = c.processor.memory ∧
            ((c.perform o op).2.perform o op').2.processor.i = c.processor.i) ∧
    (w.kk = 0x33 → c.processor.base + 3 ≤ 4096 →
      (c.perform o op).1 = .ended .next ∧ w.Spells c.processor (c.perform o op).2.processor) := by
  refine ⟨fun hkk hroom => ?_, fun hkk hroom => ?_, fun hkk hroom => h.spells o hf hkk hroom⟩
  · obtain ⟨hnext, hdumps⟩ := h.dumps o hf hkk hroom
    refine ⟨hnext, hdumps, fun c' op' w' hcomputes h' hf' hkk' hx => ?_⟩
    have hsame := hcomputes.same
    have hbase : c'.processor.base = c.processor.base := congrArg (·.toNat % 4096) (hsame.2.trans hdumps.index)
    have hle : w'.x.val ≤ w.x.val := hx
    obtain ⟨hnext', hfills⟩ := h'.fills o hf' hkk' (by omega)
    exact ⟨hnext', hfills, hdumps.fills hsame hfills hx⟩
  · obtain ⟨hnext, hfills⟩ := h.fills o hf hkk hroom
    refine ⟨hnext, hfills, fun op' w' h' hf' hkk' hx => ?_⟩
    have hbase : (c.perform o op).2.processor.base = c.processor.base := congrArg (·.toNat % 4096) hfills.index
    obtain ⟨hnext', hdumps⟩ := h'.dumps o hf' hkk' (by rw [hbase, hx]; exact hroom)
    exact ⟨hnext', hfills.dumps hdumps hx, hdumps.index.trans hfills.index⟩

/-- A core whose index register, with bits beyond the twelfth, points at the last four bytes of memory. -/
def atTheEnd : Core where
  processor := { Processor.powerOn with v := Vector.ofFn fun x => .ofNat (x.val + 101), i := 0xFFFC }

/-- Four registers are saved in the last four bytes of memory, and two of them overwritten. -/
def busyAtTheEnd : Core :=
  ((((atTheEnd.perform .quiet (.exec 0xF355)).2.perform .quiet (.exec 0x6009)).2.perform .quiet .tick).2.perform .quiet
    (.exec 0x8324)).2

/-- Three of the four come back. -/
theorem dumps_and_fills_atTheEnd :
    atTheEnd.processor.base + (0xF355 : Word).x.val + 1 = 4096 ∧ busyAtTheEnd.processor.reg 0 = 9 ∧
      (busyAtTheEnd.perform .quiet (.exec 0xF265)).2.processor.reg 0 = 101 ∧
      (busyAtTheEnd.perform .quiet (.exec 0xF265)).2.processor.reg 3 = 207 := by
  have henacts : atTheEnd.Enacts (.exec 0xF355) 0xF355 := .inl rfl
  have hroom : atTheEnd.processor.base + (0xF355 : Word).x.val + 1 = 4096 := by decide
  obtain ⟨hdump, -, -⟩ := dumps_and_fills .quiet henacts (by decide)
  obtain ⟨-, -, hback⟩ := hdump (by decide) hroom.le
  have hcomputes : (atTheEnd.perform .quiet (.exec 0xF355)).2.Computes .quiet busyAtTheEnd :=
    .word (w := 0x8324) (.tick (.word (w := 0x6009) .start (.inl rfl) (by decide))) (.inl rfl) (by decide)
  obtain ⟨-, -, hreg⟩ := hback busyAtTheEnd (.exec 0xF265) 0xF265 hcomputes (.inl rfl) (by decide) (by decide) (by decide)
  refine ⟨hroom, by decide +kernel, (hreg 0).trans ?_, (hreg 3).trans ?_⟩ <;> decide +kernel

end Core

end ChipEight
