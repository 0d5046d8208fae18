import ChipEight.Core
import ChipEight.Texture

/-!
# Checked execution

The instructions with nothing taken for granted.  Registers, stack slots, bytes and cells are looked up by number, and a
number past the end of its block is a hazard; so are a part of a block that does not lie inside it, a copy between parts
of different lengths, and a sum or a difference that does not fit into its word.

* `Checked.exec`, `Checked.step` : an instruction and a step, or the first hazard.
* `Checked.watch` : operations on a core, or the first hazard.
* `Checked.texture` : the picture of a screen, or the first hazard.
-/

namespace ChipEight.Checked

/-- What can go wrong inside an operation. -/
inductive Hazard where
  | index (size found : Nat)
  | part (size start stop : Nat)
  | lengths (target source : Nat)
  | overflow
  deriving DecidableEq, Repr

/-- A result, or the first hazard on the way to it. -/
abbrev Risky := Except Hazard

/-! ## Blocks and numbers -/

section Primitives

variable {α : Type} {n : Nat}

def look (v : Vector α n) (k : Nat) : Risky α := if h : k < n then .ok v[k] else .error (.index n k)

def put (v : Vector α n) (k : Nat) (a : α) : Risky (Vector α n) :=
  if h : k < n then .ok (v.set k a h) else .error (.index n k)

def nth (bytes : List UInt8) (k : Nat) : Risky UInt8 :=
  match bytes[k]? with
  | some b => .ok b
  | none => .error (.index bytes.length k)

/-- The bytes from `start` up to, but not including, `stop`. -/
def part (m : Bytes n) (start stop : Nat) : Risky (List UInt8) :=
  if start ≤ stop ∧ stop ≤ n then .ok (m.slice start (stop - start)) else .error (.part n start stop)

/-- The block with the bytes from `start` up to `stop` replaced by as many others. -/
def copy (m : Bytes n) (start stop : Nat) (bytes : List UInt8) : Risky (Bytes n) :=
  if start ≤ stop ∧ stop ≤ n then
    if bytes.length = stop - start then .ok (m.put start bytes) else .error (.lengths (stop - start) bytes.length)
  else .error (.part n start stop)

def plusByte (a b : UInt8) : Risky UInt8 := if a.toNat + b.toNat < UInt8.size then .ok (a + b) else .error .overflow

def minusByte (a b : UInt8) : Risky UInt8 := if b ≤ a then .ok (a - b) else .error .overflow

def timesByte (a b : UInt8) : Risky UInt8 := if a.toNat * b.toNat < UInt8.size then .ok (a * b) else .error .overflow

def plusWord (a b : UInt16) : Risky UInt16 := if a.toNat + b.toNat < UInt16.size then .ok (a + b) else .error .overflow

def minusWord (a b : UInt16) : Risky UInt16 := if b ≤ a then .ok (a - b) else .error .overflow

/-- The sum of two numbers of 64 bits. -/
def plusIndex (a b : Nat) : Risky Nat := if a + b < UInt64.size then .ok (a + b) else .error .overflow

def minusIndex (a b : Nat) : Risky Nat := if b ≤ a then .ok (a - b) else .error .overflow

end Primitives

/-! ## Spans of memory -/

/-- The fault of a span that does not lie inside memory. -/
def outside (address len : Nat) : Risky Fault := do
  return .memoryOutOfBounds (.ofNat (← plusIndex address (len - 1)))

def read (m : Memory) (address len : Nat) : Risky (Except Fault (List UInt8)) := do
  if address + len ≤ Memory.size then return .ok (← part m address (address + len))
  return .error (← outside address len)

/-- Memory with the bytes of a span of length `len` replaced. -/
def write (m : Memory) (address len : Nat) (bytes : List UInt8) : Risky (Except Fault Memory) := do
  if address + len ≤ Memory.size then return .ok (← copy m address (address + len) bytes)
  return .error (← outside address len)

/-! ## Drawing and pictures -/

/-- Turns over the cells under the set ones of some bits of a row, up to the right edge; the second component tells
whether a lit cell was turned over. -/
def drawBits (ox y : Nat) (row : UInt8) : List Nat → Screen × Bool → Risky (Screen × Bool)
  | [], r => return r
  | k :: ks, (screen, hit) => do
    if Screen.width ≤ ox + k then return (screen, hit)
    let shift ← minusIndex 7 k
    if row.toNat >>> shift % 2 = 1 then
      let cell ← look screen (y * Screen.width + (ox + k))
      let screen ← put screen (y * Screen.width + (ox + k)) (cell ^^^ 1)
      drawBits ox y row ks (screen, hit || cell == 1)
    else drawBits ox y row ks (screen, hit)

/-- Draws the rows of a sprite from row `y` on, down to the lower edge. -/
def drawRows (ox y : Nat) : List UInt8 → Screen × Bool → Risky (Screen × Bool)
  | [], r => return r
  | row :: rows, r => do
    if Screen.height ≤ y then return r
    drawRows ox (y + 1) rows (← drawBits ox y row (List.range 8) r)

/-- The red, green and blue byte of every cell. -/
def texture (s : Screen) : Risky (List UInt8) := (s.toList.flatMap (List.replicate 3)).mapM (timesByte · 255)

/-! ## Instructions -/

def reg (s : Session) (x : Digit) : Risky UInt8 := look s.v x.val

def setReg (s : Session) (x : Digit) (b : UInt8) : Risky Session := do return { s with v := ← put s.v x.val b }

def setFlagged (s : Session) (x : Digit) (b : UInt8) (flag : Bool) : Risky Session := do
  let s ← setReg s x b
  setReg s 15 (if flag then 1 else 0)

/-- The effect of an instruction. -/
def exec (o : Surroundings) (s : Session) : Instr → Risky (Outcome × Session)
  | .clear => return (.next, { s with screen := .blank })
  | .ret => do
    if s.sp = 0 then return (.fault (.stackUnderflow s.here), s)
    let sp ← minusByte s.sp 1
    let a ← look s.stack sp.toNat
    return (.next, { s with sp, pc := a })
  | .jump a => return (.next, { s with pc := a })
  | .call a => do
    if 16 ≤ s.sp.toNat then return (.fault (.stackOverflow s.here), s)
    let stack ← put s.stack s.sp.toNat s.pc
    let sp ← plusByte s.sp 1
    return (.next, { s with stack, sp, pc := a })
  | .jumpPlus a => do
    let pc ← plusWord a (← reg s 0).toUInt16
    return (.next, { s with pc })
  | .skipEqByte x kk => do return (.next, s.passIf ((← reg s x) == kk))
  | .skipNeByte x kk => do return (.next, s.passIf ((← reg s x) != kk))
  | .skipEq x y => do return (.next, s.passIf ((← reg s x) == (← reg s y)))
  | .skipNe x y => do return (.next, s.passIf ((← reg s x) != (← reg s y)))
  | .setByte x kk => do return (.next, ← setReg s x kk)
  | .addByte x kk => do return (.next, ← setReg s x ((← reg s x) + kk))
  | .copy x y => do return (.next, ← setReg s x (← reg s y))
  | .or x y => do return (.next, ← setReg s x ((← reg s x) ||| (← reg s y)))
  | .and x y => do return (.next, ← setReg s x ((← reg s x) &&& (← reg s y)))
  | .xor x y => do return (.next, ← setReg s x ((← reg s x) ^^^ (← reg s y)))
  | .add x y => do
    let a ← reg s x
    let b ← reg s y
    return (.next, ← setFlagged s x (a + b) (255 < a.toNat + b.toNat))
  | .sub x y => do
    let a ← reg s x
    let b ← reg s y
    return (.next, ← setFlagged s x (a - b) (b ≤ a))
  | .subFrom x y => do
    let a ← reg s x
    let b ← reg s y
    return (.next, ← setFlagged s x (b - a) (a ≤ b))
  | .shiftRight x => do
    let a ← reg s x
    return (.next, ← setFlagged s x (a >>> 1) (a &&& 0x01 == 0x01))
  | .shiftLeft x => do
    let a ← reg s x
    return (.next, ← setFlagged s x (a <<< 1) (a &&& 0x80 == 0x80))
  | .setIndex a => return (.next, { s with i := a })
  | .addIndex x => do return (.next, { s with i := s.i + (← reg s x).toUInt16 })
  | .glyph x => do return (.next, { s with i := Glyph.address (← reg s x) })
  | .random x kk => do
    let s' ← setReg s x (o.random s.tally.drawn &&& kk)
    return (.next, { s' with tally := s.tally.draw })
  | .draw x y n => do
    let ox := (← reg s x).toNat % Screen.width
    let oy := (← reg s y).toNat % Screen.height
    match ← read s.memory s.address.toNat n.val with
    | .error f => return (.fault f, s)
    | .ok rows =>
      let (screen, hit) ← drawRows ox oy rows (s.screen, false)
      return (.next, ← setReg { s with screen } 15 (if hit then 1 else 0))
  | .skipHeld x => do
    let held := o.heldKey s.tally
    return (.next, { s.passIf (held == some (← reg s x)) with tally := s.tally.ask })
  | .skipNotHeld x => do
    let held := o.heldKey s.tally
    return (.next, { s.passIf (held != some (← reg s x)) with tally := s.tally.ask })
  | .awaitKey x => do
    match o.heldKey s.tally with
    | some k => return (.next, { (← setReg s x k) with tally := s.tally.ask })
    | none => return (.awaitingKey, { s with pc := s.here, tally := s.tally.ask })
  | .readDelay x => do return (.next, ← setReg s x s.delay)
  | .setDelay x => do return (.next, { s with delay := ← reg s x })
  | .setSound x => do
    let b ← reg s x
    return (.next, { s with sound := b, tally := if b = 0 then s.tally else s.tally.startTone })
  | .digits x => do
    let b ← reg s x
    match ← write s.memory s.address.toNat 3 (Session.decimals b) with
    | .error f => return (.fault f, s)
    | .ok memory => return (.next, { s with memory })
  | .dump x => do
    match ← write s.memory s.address.toNat (x.val + 1) (← part s.v 0 (x.val + 1)) with
    | .error f => return (.fault f, s)
    | .ok memory => return (.next, { s with memory })
  | .fill x => do
    match ← read s.memory s.address.toNat (x.val + 1) with
    | .error f => return (.fault f, s)
    | .ok bytes =>
      let values ← copy (Vector.replicate 16 0) 0 (x.val + 1) bytes
      let v ← copy s.v 0 (x.val + 1) (← part values 0 (x.val + 1))
      return (.next, { s with v })

def execWord (o : Surroundings) (s : Session) (w : Word) : Risky (Outcome × Session) :=
  match Instr.ofWord? w with
  | some i => exec o s i
  | none => return (.next, s)

def step (o : Surroundings) (s : Session) : Risky (Outcome × Session) := do
  match ← read s.memory s.pc.toNat 2 with
  | .error f => return (.fault f, s)
  | .ok bytes =>
    let w := Word.ofBytes (← nth bytes 0) (← nth bytes 1)
    execWord o { s with pc := s.pc + 2 } w

/-! ## Operations on a core -/

def countDown (b : UInt8) : Risky UInt8 := if 0 < b then minusByte b 1 else return b

def tick (t : Timers) : Risky (Timers × Bool) := do
  let delay ← countDown t.delay
  let sound ← countDown t.sound
  return ({ delay, sound }, 0 < t.sound && sound == 0)

def perform (o : Surroundings) (c : Core) : Core.Op → Risky (Core.Answer × Core)
  | .step => do
    let (outcome, s) ← step o c.session
    return (.ended outcome, c.resume s)
  | .exec w => do
    let (outcome, s) ← execWord o c.session w
    return (.ended outcome, c.resume s)
  | .tick => do
    let (timers, silent) ← tick c.board.timers
    return (.ticked silent, { c with board := { c.board with timers } })
  | .reset => return (.done, { c with board := c.board.reset })
  | .restore m => return (.done, c.restore m)

def watch (o : Surroundings) (c : Core) : List Core.Op → Risky (List Core.Sight)
  | [] => return []
  | op :: ops => do
    let (a, c') ← perform o c op
    return c.sight c' a :: (← watch o c' ops)

end ChipEight.Checked
