import Chip8.Instruction
import Chip8.Machine.Basic

/-!
# Running instructions

`Machine.step` fetches the word at the program counter, decodes it and carries the instruction out.
The program counter moves past an instruction before the instruction runs; jumps replace it, skips
move it once more, and an instruction that waits for a key moves it back.

Every instruction that can fault looks for the fault before it changes anything else, so a fault
leaves the machine as it was, except that it is paused from then on.

`Machine.cycle` is what happens in a frame: the timers tick if a tick is due, and then one
instruction runs.
-/

namespace Chip8.Machine

/-! ## Single instructions -/

/-- Moves the program counter past one instruction. -/
def advance (m : Machine) : Machine := { m with pc := m.pc + 2 }

/-- Moves the program counter past one more instruction if `c` holds. -/
def skipIf (m : Machine) (c : Bool) : Machine := if c then m.advance else m

/-- The result of an instruction that was carried out and left `m`. -/
def ran (m : Machine) : Answer × Machine := (.ok .ran, m)

/-- The result of an instruction that found a fault in `m`. -/
def faulted (m : Machine) (fault : Fault) : Answer × Machine := (.error fault, m)

/-- Goes on with `next` if the `length` bytes from I on lie in memory. -/
@[inline] def within (m : Machine) (length : Nat) (next : Answer × Machine) : Answer × Machine :=
  if Memory.InBounds m.index length then next else m.faulted (.memoryOutOfBounds m.index)

/-- The bytes from I on. -/
def readIndex (m : Machine) (length : Nat) : List UInt8 := readRun m.memory m.index.toNat length

/-- Puts bytes into memory from I on. -/
def writeIndex (m : Machine) (bytes : List UInt8) : Machine :=
  { m with memory := writeRun m.memory m.index.toNat bytes }

def setReg (m : Machine) (x : Nibble) (byte : UInt8) : Machine :=
  { m with regs := m.regs.set x byte }

/-- The hundreds, tens and units of a byte. -/
def decimalDigits (byte : UInt8) : List UInt8 := [byte / 100, byte / 10 % 10, byte % 10]

/-- Carries out an instruction on a machine whose program counter is already past it. -/
def perform (m : Machine) : Instruction → Answer × Machine
  | .sys target => ran { m with pc := target.val.toUInt16 }
  | .jump target => ran { m with pc := target.val.toUInt16 }
  | .jumpOffset target => ran { m with pc := target.val.toUInt16 + m.regs[0].toUInt16 }
  | .call target =>
    match m.stack.push? m.pc with
    | some stack => ran { m with stack := stack, pc := target.val.toUInt16 }
    | none => m.faulted .stackOverflow
  | .ret =>
    match m.stack.pop? with
    | some (address, stack) => ran { m with stack := stack, pc := address }
    | none => m.faulted .stackUnderflow
  | .skipEqByte x nn => ran (m.skipIf (m.regs[x] == nn))
  | .skipNeByte x nn => ran (m.skipIf (m.regs[x] != nn))
  | .skipEqReg x y => ran (m.skipIf (m.regs[x] == m.regs[y]))
  | .skipNeReg x y => ran (m.skipIf (m.regs[x] != m.regs[y]))
  | .setByte x nn => ran (m.setReg x nn)
  | .addByte x nn => ran (m.setReg x (m.regs[x] + nn))
  | .setIndex target => ran { m with index := target.val.toUInt16 }
  | .addIndex x => ran { m with index := m.index + m.regs[x].toUInt16 }
  | .arithmetic op x y => ran { m with regs := m.regs.apply op x y }
  | .random x nn =>
    ran { m.setReg x (m.random.peek &&& nn) with random := m.random.advance }
  | .clear => ran { m with display := Display.blank }
  | .draw x y n =>
    m.within n
      (let canvas := Sprite.Canvas.draw x y (m.readIndex n) ⟨m.display, m.regs⟩
       ran { m with display := canvas.display, regs := canvas.regs })
  | .skipHeld x => ran (m.skipIf (m.keypad.isHeld m.regs[x].toNat))
  | .skipNotHeld x => ran (m.skipIf (!m.keypad.isHeld m.regs[x].toNat))
  | .waitKey x =>
    match m.keypad.pending with
    | some key => ran { m.setReg x key.val.toUInt8 with keypad := m.keypad.take }
    | none => (.ok .waiting, { m with pc := m.pc - 2 })
  | .readDelay x => ran (m.setReg x m.delay)
  | .setDelay x => ran { m with delay := m.regs[x] }
  | .setSound x => ran { m with sound := m.regs[x] }
  | .glyph x =>
    if m.regs[x].toNat ≤ 15 then
      ran { m with index := (Font.glyphAddress m.regs[x].toNat).toUInt16 }
    else m.faulted (.invalidFontDigit m.regs[x])
  | .decimal x => m.within 3 (ran (m.writeIndex (decimalDigits m.regs[x])))
  | .store x => m.within (x + 1) (ran (m.writeIndex (readRun m.regs 0 (x + 1))))
  | .load x =>
    m.within (x + 1) (ran { m with regs := writeRun m.regs 0 (m.readIndex (x + 1)) })
  | .unknown word => m.faulted (.unknownInstruction word)

/-- Moves the program counter past an instruction and carries it out. -/
def execute (m : Machine) (i : Instruction) : Answer × Machine := m.advance.perform i

/-! ## Steps -/

def byteAt (m : Machine) (address : UInt16) : Except Fault UInt8 :=
  match m.memory[address.toNat]? with
  | some byte => .ok byte
  | none => .error (.memoryOutOfBounds address)

/-- The word of two bytes, high byte first. -/
def wordOf (high low : UInt8) : UInt16 := UInt16.ofNat (256 * high.toNat + low.toNat)

/-- The word at the program counter. -/
def fetch (m : Machine) : Except Fault UInt16 := do
  let high ← m.byteAt m.pc
  let low ← m.byteAt (m.pc + 1)
  return wordOf high low

/-- Fetches an instruction and carries it out, as far as there is no fault. -/
def attempt (m : Machine) : Answer × Machine :=
  match m.fetch with
  | .ok word => m.execute (.ofWord word)
  | .error fault => m.faulted fault

/-- Carries out one instruction, unless the machine is paused. A fault takes the program counter
back to the instruction and pauses the machine. -/
def step (m : Machine) : Answer × Machine :=
  if m.paused then (.ok .paused, m)
  else
    let pc := m.pc
    match m.attempt with
    | (.ok outcome, next) => (.ok outcome, next)
    | (.error fault, next) => (.error fault, { next with pc := pc, paused := true })

/-! ## Timers and frames -/

/-- A timer after a tick; it stops at zero. -/
def countdown (timer : UInt8) : UInt8 := if timer = 0 then 0 else timer - 1

def tick (m : Machine) : Machine :=
  { m with delay := countdown m.delay, sound := countdown m.sound }

/-- Counts a frame, and lets the timers tick if `speed` frames have gone by. -/
def countFrame (m : Machine) : Machine :=
  if m.speed ≤ m.sinceTick + 1 then { m.tick with sinceTick := 0 }
  else { m with sinceTick := m.sinceTick + 1 }

/-- Runs one frame: counts it and then carries out one instruction. -/
def cycle (m : Machine) : Answer × Machine := m.countFrame.step

end Chip8.Machine
