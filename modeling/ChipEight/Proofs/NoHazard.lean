import ChipEight.Checked
import ChipEight.Proofs.Decoding
import ChipEight.Proofs.Image.RoundTrip
import ChipEight.Proofs.Spans
import ChipEight.Proofs.WellFormed

/-!
# No hazards

Checked execution of a well-formed machine meets no hazard and comes to the same as plain execution: every number that
is looked up lies inside its block, and every sum and difference fits.

* `exec_eq`, `step_eq`, `perform_eq`, `watch_eq` : checked execution is plain execution.
* `Core.hazard_free` : so it is from every machine that starts a program or is read from an image, for ever after.
-/

namespace ChipEight.Checked

theorem ok_bind {α β : Type} (a : α) (f : α → Risky β) : (Except.ok a >>= f) = f a := rfl

/-! ### Blocks -/

section Blocks

variable {α : Type} {n : Nat}

theorem look_eq (v : Vector α n) (k : Fin n) : look v k.val = .ok (v.get k) := dif_pos k.isLt

theorem put_eq (v : Vector α n) (k : Fin n) (a : α) : put v k.val a = .ok (v.setIfInBounds k.val a) := by
  unfold put
  rw [dif_pos k.isLt]
  refine congrArg Except.ok (Vector.ext fun j hj => ?_)
  rw [Vector.getElem_set, Vector.getElem_setIfInBounds hj]

theorem part_eq (m : Bytes n) (start len : Nat) (h : start + len ≤ n) :
    part m start (start + len) = .ok (m.slice start len) := by
  unfold part
  rw [if_pos ⟨Nat.le_add_right start len, h⟩, Nat.add_sub_cancel_left]

theorem copy_eq (m : Bytes n) {start : Nat} {bytes : List UInt8} (h : start + bytes.length ≤ n) :
    copy m start (start + bytes.length) bytes = .ok (m.put start bytes) := by
  unfold copy
  rw [if_pos ⟨Nat.le_add_right start bytes.length, h⟩, if_pos (Nat.add_sub_cancel_left ..).symm]

theorem nth_slice (m : Bytes n) {start len k : Nat} (h : start + len ≤ n) (hk : k < len) (hlt : start + k < n) :
    nth (m.slice start len) k = .ok m[start + k] := by
  have hlen : k < (m.slice start len).length := by
    rw [Bytes.length_slice]
    omega
  unfold nth
  rw [List.getElem?_eq_getElem hlen, Bytes.getElem_slice m hlen hlt]

theorem slice_zero (m : Bytes n) (len : Nat) : m.slice 0 len = m.toList.take len := by
  unfold Bytes.slice
  rw [Vector.toList_extract, Nat.zero_add, List.drop_zero, Nat.sub_zero]

theorem slice_put (m : Bytes n) {bytes : List UInt8} (h : bytes.length ≤ n) :
    (m.put 0 bytes).slice 0 bytes.length = bytes := by
  refine List.ext_getElem (by simp [h]) fun k hk hk' => ?_
  rw [Bytes.getElem_slice _ hk (by omega), Bytes.getElem_put]
  simp [hk']

end Blocks

/-! ### Spans -/

section Spans

variable {address : UInt64} {len : Nat}

/-- What checked execution makes of a span: a fault is a result, the overflow a hazard. -/
def hedged {α : Type} : Except Memory.Denial α → Risky (Except Fault α)
  | .ok a => .ok (.ok a)
  | .error (.fault f) => .ok (.error f)
  | .error .overflow => .error .overflow

theorem error_outside (α : Type) (address : UInt64) (len : Nat) :
    (outside address.toNat len >>= fun f => .ok (.error f)) =
      hedged (.error (Memory.outside address len) : Except Memory.Denial α) := by
  simp only [outside, Memory.outside, plusIndex]
  split <;> rfl

theorem read_inside (m : Memory) {start : Nat} (h : start + len ≤ Memory.size) :
    read m start len = .ok (.ok (m.slice start len)) := by
  unfold read
  rw [if_pos h, part_eq m _ _ h]
  rfl

theorem read_eq (m : Memory) (address len : UInt64) : read m address.toNat len.toNat = hedged (m.read address len) := by
  unfold Memory.read
  by_cases h : address.toNat + len.toNat ≤ Memory.size
  · rw [read_inside m h, if_pos h]
    rfl
  · unfold read
    rw [if_neg h, if_neg h]
    exact error_outside _ address len.toNat

theorem write_eq (m : Memory) (address : UInt64) (bytes : List UInt8) :
    write m address.toNat bytes.length bytes = hedged (m.write address bytes) := by
  unfold write Memory.write
  by_cases h : address.toNat + bytes.length ≤ Memory.size
  · rw [if_pos h, if_pos h, copy_eq m h]
    rfl
  · rw [if_neg h, if_neg h]
    exact error_outside _ address bytes.length

end Spans

/-! ### Drawing -/

section Drawing

open Screen Sprite

variable (ox : Nat) {y : Nat}

theorem bit_iff {row : UInt8} {k : Nat} : bit row k = true ↔ row.toNat >>> (7 - k) % 2 = 1 := by
  unfold bit
  rw [Nat.testBit_eq_decide_div_mod_eq, Nat.shiftRight_eq_div_pow, decide_eq_true_eq]

/-- The columns rise, so all behind the first one past the right edge are past it too. -/
theorem drawBits_eq (row : UInt8) (hy : y < height) {ks : List Nat} (hks : ks.Pairwise (· < ·)) (hlt : ∀ k ∈ ks, k < 8)
    (r : Screen × Bool) :
    drawBits ox y row ks r =
      .ok ((ks.filterMap fun k => if bit row k then cell? (ox + k) y else none).foldl turn r) := by
  induction ks generalizing r with
  | nil => rfl
  | cons k ks ih =>
    obtain ⟨hk, hks⟩ := List.pairwise_cons.mp hks
    have ih := ih hks fun j hj => hlt j (List.mem_cons_of_mem k hj)
    have hk8 := hlt k List.mem_cons_self
    unfold drawBits
    by_cases hedge : width ≤ ox + k
    · have hnone : (k :: ks).filterMap (fun k => if bit row k then cell? (ox + k) y else none) = [] := by
        refine List.filterMap_eq_nil_iff.mpr fun j hj => ?_
        have hj : width ≤ ox + j := by
          rcases List.mem_cons.mp hj with rfl | hj
          · exact hedge
          · exact hedge.trans (Nat.add_le_add_left (hk j hj).le ox)
        rw [cell?_of_width_le y hj, ite_self]
      rw [hnone]
      simp only [if_pos hedge]
      rfl
    · obtain ⟨c, hc⟩ : ∃ c, cell? (ox + k) y = some c := ⟨_, dif_pos ⟨Nat.not_le.mp hedge, hy⟩⟩
      have hval := (cell?_eq_some_iff.mp hc).2.2
      have hshift : minusIndex 7 k = .ok (7 - k) := if_pos (by omega)
      rw [List.filterMap_cons]
      simp only [if_neg hedge, hshift, ok_bind]
      by_cases hbit : bit row k = true
      · have hlook := look_eq r.1 c
        have hput := put_eq r.1 c (r.1.get c ^^^ 1)
        rw [hval] at hlook hput
        rw [if_pos (bit_iff.mp hbit), if_pos hbit, hc, hlook, ok_bind, hput, ok_bind, ih, ← hval]
        rfl
      · rw [if_neg fun h => hbit (bit_iff.mpr h), if_neg hbit]
        exact ih r

theorem drawRows_eq (rows : List UInt8) (r : Screen × Bool) :
    drawRows ox y rows r = .ok ((cells ox y rows).foldl turn r) := by
  induction rows generalizing y r with
  | nil => rfl
  | cons row rows ih =>
    unfold drawRows
    by_cases hedge : height ≤ y
    · rw [if_pos hedge, cells_of_height_le ox hedge]
      rfl
    · have hrow := drawBits_eq ox row (Nat.not_le.mp hedge) List.pairwise_lt_range (fun k => List.mem_range.mp) r
      rw [if_neg hedge, hrow, cells, List.foldl_append]
      exact ih _

theorem drawRows_eq_draw (s : Screen) (oy : Nat) (rows : List UInt8) :
    drawRows ox oy rows (s, false) = .ok (s.draw ox oy rows) := by
  rw [drawRows_eq, Screen.draw_eq]

end Drawing

/-! ### Instructions -/

section Instructions

variable (s : Session) (x : Digit)

theorem reg_eq : reg s x = .ok (s.reg x) := look_eq s.v x

theorem setReg_eq (b : UInt8) : setReg s x b = .ok (s.setReg x b) := by
  unfold setReg
  rw [put_eq]
  rfl

theorem setFlagged_eq (b : UInt8) (flag : Bool) : setFlagged s x b flag = .ok (s.setFlagged x b flag) := by
  unfold setFlagged
  rw [setReg_eq, ok_bind, setReg_eq]
  rfl

theorem minusByte_one {b : UInt8} (h : b ≠ 0) : minusByte b 1 = .ok (b - 1) := by
  refine if_pos ?_
  exact UInt8.pos_iff_ne_zero.mpr h

theorem plusByte_one {b : UInt8} (h : b.toNat < 16) : plusByte b 1 = .ok (b + 1) := by
  refine if_pos ?_
  rw [UInt8.toNat_one, UInt8.size]
  omega

/-- Nothing overflows where the index register points. -/
theorem read_eq_overrun {len : Nat} (h : len ≤ 16) :
    read s.memory s.address.toNat len = .ok (match s.overrun? len with
      | some f => .error f
      | none => .ok (s.memory.slice s.address.toNat len)) := by
  have hread := read_eq s.memory s.address (.ofNat len)
  rw [Memory.toNat_len (s.address_add_lt h), s.read_eq_overrun len h] at hread
  rw [hread]
  cases s.overrun? len with
  | none => rfl
  | some f => rfl

theorem write_eq_overrun {bytes : List UInt8} {len : Nat} (hlen : bytes.length = len) (h : len ≤ 16) :
    write s.memory s.address.toNat len bytes = .ok (match s.overrun? len with
      | some f => .error f
      | none => .ok (s.memory.put s.address.toNat bytes)) := by
  have hwrite := write_eq s.memory s.address bytes
  rw [hlen, s.write_eq_overrun bytes hlen h] at hwrite
  rw [hwrite]
  cases s.overrun? len with
  | none => rfl
  | some f => rfl

theorem part_registers_eq : part s.v 0 (x.val + 1) = .ok (s.v.toList.take (x.val + 1)) := by
  have hpart := part_eq s.v 0 (x.val + 1) (by omega)
  rwa [slice_zero, Nat.zero_add] at hpart

section Fill

variable {x} {bytes : List UInt8} (hlen : bytes.length = x.val + 1)

include hlen

theorem copy_registers_eq (v : Bytes 16) : copy v 0 (x.val + 1) bytes = .ok (v.put 0 bytes) := by
  have hroom : 0 + bytes.length ≤ 16 := by omega
  have hcopy := copy_eq v hroom
  rwa [Nat.zero_add, hlen] at hcopy

theorem part_put_eq (v : Bytes 16) : part (v.put 0 bytes) 0 (x.val + 1) = .ok bytes := by
  have hpart := part_eq (v.put 0 bytes) 0 bytes.length (by omega)
  rwa [slice_put v (by omega), Nat.zero_add, hlen] at hpart

end Fill

variable {s}

/-- The only sums and differences that do not wrap round are those of stack pointer and jump target. -/
theorem exec_eq (o : Surroundings) (hsp : s.sp ≤ 16) {i : Instr} (hi : ∀ a, i = .jumpPlus a → a.toNat < 4096) :
    exec o s i = .ok (s.exec o i) := by
  cases i with
  | ret =>
    simp only [exec, Session.exec]
    by_cases hzero : s.sp = 0
    · rw [if_pos hzero, if_pos hzero]
      rfl
    · have htop := Session.top_lt hsp hzero
      have hlook : look s.stack (s.sp - 1).toNat = .ok s.stack[(s.sp - 1).toNat] := dif_pos htop
      rw [if_neg hzero, if_neg hzero, minusByte_one hzero, ok_bind, hlook, ok_bind, Vector.getElem?_eq_getElem htop]
      rfl
  | call a =>
    simp only [exec, Session.exec]
    by_cases hroom : s.sp.toNat < 16
    · have hput : put s.stack s.sp.toNat s.pc = .ok (s.stack.set s.sp.toNat s.pc hroom) := dif_pos hroom
      rw [if_neg (Nat.not_le.mpr hroom), dif_pos hroom, hput, ok_bind, plusByte_one hroom, ok_bind]
      rfl
    · rw [if_pos (Nat.not_lt.mp hroom), dif_neg hroom]
      rfl
  | jumpPlus a =>
    have hplus : plusWord a (s.reg 0).toUInt16 = .ok (a + (s.reg 0).toUInt16) := by
      refine if_pos ?_
      have ha := hi a rfl
      have hb := (s.reg 0).toNat_lt
      rw [UInt8.toNat_toUInt16, UInt16.size]
      omega
    simp only [exec, reg_eq, ok_bind, hplus]
    rfl
  | add x y | sub x y | subFrom x y | shiftRight x | shiftLeft x =>
    simp only [exec, reg_eq, setFlagged_eq, ok_bind]
    rfl
  | draw x y n =>
    have hrows : n.val ≤ 16 := by omega
    simp only [exec, Session.exec, reg_eq, read_eq_overrun s hrows, s.read_eq_overrun n.val hrows, ok_bind]
    cases s.overrun? n.val with
    | some f => rfl
    | none =>
      simp only [drawRows_eq_draw, ok_bind, setReg_eq]
      rfl
  | awaitKey x =>
    simp only [exec, Session.exec, setReg_eq, ok_bind]
    cases o.heldKey s.tally with
    | none => rfl
    | some k => rfl
  | digits x =>
    have hlen := Session.length_decimals (s.reg x)
    simp only [exec, Session.exec, reg_eq, write_eq_overrun s hlen (by decide), s.write_eq_overrun _ hlen (by decide),
      ok_bind]
    cases s.overrun? 3 with
    | some f => rfl
    | none => rfl
  | dump x =>
    have hlen := s.length_take_registers x
    have hregs : x.val + 1 ≤ 16 := by omega
    simp only [exec, Session.exec, part_registers_eq, write_eq_overrun s hlen hregs, s.write_eq_overrun _ hlen hregs,
      ok_bind]
    cases s.overrun? (x.val + 1) with
    | some f => rfl
    | none => rfl
  | fill x =>
    have hregs : x.val + 1 ≤ 16 := by omega
    simp only [exec, Session.exec, read_eq_overrun s hregs, s.read_eq_overrun (x.val + 1) hregs, ok_bind]
    cases hover : s.overrun? (x.val + 1) with
    | some f => rfl
    | none =>
      have hlen := s.length_slice_address hover
      simp only [copy_registers_eq hlen, part_put_eq hlen, ok_bind]
      rfl
  | _ =>
    simp only [exec, reg_eq, setReg_eq, ok_bind]
    rfl

theorem execWord_eq (o : Surroundings) (hsp : s.sp ≤ 16) (w : Word) : execWord o s w = .ok (s.execWord o w) := by
  unfold execWord Session.execWord
  cases hi : Instr.ofWord? w with
  | none => rfl
  | some i =>
    refine exec_eq o hsp fun a ha => ?_
    subst ha
    obtain ⟨-, rfl⟩ := Instr.ofWord?_eq_some_iff.mp hi
    unfold Word.addr
    rw [UInt16.toNat_mod]
    exact Nat.mod_lt _ (by decide)

theorem step_eq (o : Surroundings) (hsp : s.sp ≤ 16) : step o s = .ok (s.step o) := by
  unfold step Session.step
  rcases Nat.lt_or_ge Memory.size (s.pc.toNat + 2) with hout | hin
  · have haddr := UInt16.toNat_toUInt64 s.pc
    have hread := read_eq s.memory s.pc.toUInt64 (.ofNat 2)
    rw [Memory.read_of_lt s.memory (haddr ▸ Memory.toNat_add_two_lt s.pc) (haddr ▸ hout), haddr,
      UInt64.toNat_ofNat_of_lt' (by decide)] at hread
    rw [Memory.word_of_lt s.memory hout, hread]
    rfl
  · have hhi := nth_slice s.memory hin (k := 0) (by omega) (by omega)
    have hlo := nth_slice s.memory hin (k := 1) (by omega) (by omega)
    have hword : s.memory.word s.pc = .ok (.ofBytes s.memory[s.pc.toNat] s.memory[s.pc.toNat + 1]) := dif_pos hin
    simp only [hword, read_inside s.memory hin, hhi, hlo, ok_bind]
    exact execWord_eq (s := { s with pc := s.pc + 2 }) o hsp _

end Instructions

/-! ### Operations -/

theorem countDown_eq (b : UInt8) : countDown b = .ok (Timers.countDown b) := by
  unfold countDown Timers.countDown
  by_cases hzero : b = 0
  · rw [hzero]
    rfl
  · rw [if_pos (UInt8.pos_iff_ne_zero.mpr hzero), if_neg hzero]
    exact minusByte_one hzero

theorem silent_eq (b : UInt8) : (decide (0 < b) && Timers.countDown b == 0) = (b == 1) := by
  unfold Timers.countDown
  by_cases hzero : b = 0
  · rw [hzero]
    rfl
  · rw [if_neg hzero, decide_eq_true (UInt8.pos_iff_ne_zero.mpr hzero), Bool.true_and, Bool.eq_iff_iff]
    simp only [beq_iff_eq, ← UInt8.toNat_inj, UInt8.toNat_sub, UInt8.reduceToNat] at *
    have := b.toNat_lt
    omega

theorem tick_eq (t : Timers) : tick t = .ok t.tick := by
  simp only [tick, countDown_eq, ok_bind, silent_eq]
  rfl

variable {c : Core} (o : Surroundings)

theorem perform_eq (h : c.machine.sp ≤ 16) (op : Core.Op) : perform o c op = .ok (c.perform o op) := by
  cases op with
  | step =>
    simp only [perform, step_eq (s := c.session) o h, ok_bind]
    rfl
  | exec w =>
    simp only [perform, execWord_eq (s := c.session) o h, ok_bind]
    rfl
  | tick =>
    simp only [perform, tick_eq, ok_bind]
    rfl
  | reset | restore m => rfl

theorem watch_eq (h : c.machine.WellFormed) {ops : List Core.Op} (hops : ∀ m, .restore m ∈ ops → m.WellFormed) :
    watch o c ops = .ok (c.watch o ops) := by
  induction ops generalizing c with
  | nil => rfl
  | cons op ops ih =>
    have hnext : (c.perform o op).2.machine.WellFormed := by
      refine Core.wellFormed_perform o h fun m hm => ?_
      exact hops m (hm ▸ List.mem_cons_self)
    have ih := ih hnext fun m hm => hops m (List.mem_cons_of_mem op hm)
    simp only [watch, perform_eq o h.sp_le, ok_bind, ih]
    rfl

end ChipEight.Checked

namespace ChipEight.Core

/-- **Nothing goes wrong inside a well-formed machine.**  The machine that starts a program is well-formed, whatever was
on its board, and so is every machine that is read from an image.  From a well-formed machine on, whatever is done with
it and whatever it is told, it stays well-formed and always finds its return address; and checked execution meets no
hazard, but sees the same. -/
theorem hazard_free :
    (∀ (program : List UInt8) (p : Processor) (b : Board), Processor.withProgram? program = some p →
      (b.reset.machine p).WellFormed) ∧
    (∀ (bytes : List UInt8) (m : Machine), Image.decode bytes = .ok m → m.WellFormed) ∧
    (∀ (o : Surroundings) (c : Core) (ops : List Op), c.machine.WellFormed → (∀ m, .restore m ∈ ops → m.WellFormed) →
      (∀ s ∈ c.watch o ops, s.machine.WellFormed ∧ s.answer ≠ .ended .breakdown) ∧
      Checked.watch o c ops = .ok (c.watch o ops)) := by
  refine ⟨fun program p b h => ?_, fun bytes m h => Image.wellFormed_of_decode h, fun o c ops h hops => ?_⟩
  · refine Board.wellFormed_reset ?_
    rw [Processor.sp_of_withProgram? h]
    decide
  · exact ⟨wellFormed_watch o h hops, Checked.watch_eq o h hops⟩

/-- A returning call, a call, the widest jump, a sprite, ticks, a fresh board and another machine. -/
def Op.assorted : List Op :=
  [.exec 0x00EE, .exec 0x2ABC, .exec 0xBFFF, .exec 0xDF0F, .exec 0xFF65, .tick, .reset, .restore Image.midway, .step]

theorem hazard_free_midway :
    (∃ p, Processor.withProgram? [0x12, 0x00] = some p ∧ (({} : Board).reset.machine p).WellFormed) ∧
      Image.midway.WellFormed ∧
      Checked.watch ⟨fun _ => none, fun _ => 0⟩ (Core.restore {} Image.midway) Op.assorted =
        .ok (Core.watch ⟨fun _ => none, fun _ => 0⟩ (Core.restore {} Image.midway) Op.assorted) := by
  obtain ⟨hprogram, himage, hwatch⟩ := hazard_free
  have hmidway := himage _ Image.midway (Image.decode_encode Image.wellFormed_midway)
  have hstart : ∃ p, Processor.withProgram? [0x12, 0x00] = some p := ⟨_, if_pos (by decide)⟩
  obtain ⟨p, hp⟩ := hstart
  refine ⟨⟨p, hp, hprogram [0x12, 0x00] p {} hp⟩, hmidway, ?_⟩
  refine (hwatch ⟨fun _ => none, fun _ => 0⟩ (Core.restore {} Image.midway) Op.assorted hmidway ?_).2
  intro m hm
  simp only [Op.assorted, List.mem_cons, reduceCtorEq, Op.restore.injEq, List.not_mem_nil, or_false, false_or] at hm
  rw [hm]
  exact hmidway

end ChipEight.Core
