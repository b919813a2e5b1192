import Mathlib.Algebra.Group.Nat.Defs
import Chip8.Host

/-!
# Checked operations

The machine once more, with all that can go wrong below the level of faults looked at first: a cell
is read and written by its number, a run of cells is copied by its bounds, and a sum, a difference
and a shift are those of numbers of some width. A check that fails is a trap, and ends everything.

Faults are not traps. They are found by tests of the machine itself, as in `Checked.within`, and
such a test is all that stands before an access with a number taken from a program.
-/

namespace Chip8

/-- What must never happen. -/
inductive Trap where
  /-- A cell outside an array. -/
  | index (length index : Nat)
  /-- A run of cells outside an array. -/
  | slice (length start stop : Nat)
  /-- A run of cells copied over one of another length. -/
  | lengths (expected given : Nat)
  /-- A number that its type cannot hold. -/
  | overflow
  /-- A shift by the width of a number or more. -/
  | shift (width distance : Nat)
  /-- A lower limit above the upper one. -/
  | limits (low high : Nat)
  /-- A number of more than four bits where a hexadecimal digit is wanted. -/
  | notANibble (n : Nat)
deriving DecidableEq, Repr

abbrev Checked := Except Trap

namespace Checked

/-! ## Cells and numbers -/

section primitives

variable {α : Type} {n : Nat}

def cell (v : Vector α n) (i : Nat) : Checked α :=
  if h : i < n then .ok v[i] else .error (.index n i)

def setCell (v : Vector α n) (i : Nat) (a : α) : Checked (Vector α n) :=
  if h : i < n then .ok (v.set i a) else .error (.index n i)

/-- The cells from `start` up to `stop`. -/
def slice (v : Vector α n) (start stop : Nat) : Checked (List α) :=
  if start ≤ stop ∧ stop ≤ n then .ok (readRun v start (stop - start))
  else .error (.slice n start stop)

/-- Copies `values` over the cells from `start` up to `stop`. -/
def copySlice (v : Vector α n) (start stop : Nat) (values : List α) : Checked (Vector α n) :=
  if start ≤ stop ∧ stop ≤ n then
    if values.length = stop - start then .ok (writeRun v start values)
    else .error (.lengths (stop - start) values.length)
  else .error (.slice n start stop)

/-- The sum of two numbers of `width` bits. -/
def sum (width a b : Nat) : Checked Nat :=
  if a + b < 2 ^ width then .ok (a + b) else .error .overflow

def difference (a b : Nat) : Checked Nat := if b ≤ a then .ok (a - b) else .error .overflow

/-- The product of two numbers of `width` bits. -/
def product (width a b : Nat) : Checked Nat :=
  if a * b < 2 ^ width then .ok (a * b) else .error .overflow

/-- A number of `width` bits shifted to the left; bits shifted out are lost. -/
def shiftLeft (width a distance : Nat) : Checked Nat :=
  if distance < width then .ok ((a <<< distance) % 2 ^ width) else .error (.shift width distance)

/-- A number of `width` bits shifted to the right. -/
def shiftRight (width a distance : Nat) : Checked Nat :=
  if distance < width then .ok (a >>> distance) else .error (.shift width distance)

/-- The number within the limits that is nearest to `a`. -/
def clamp (low high a : Nat) : Checked Nat :=
  if low ≤ high then .ok (max low (min high a)) else .error (.limits low high)

def nibble (a : Nat) : Checked Nibble :=
  match Nibble.ofNat? a with
  | some k => .ok k
  | none => .error (.notANibble a)

end primitives

/-- The width of the numbers that count and index. -/
def sizeWidth : Nat := 64

/-! ## Parts of the machine -/

/-- The second, third and fourth digit of a word. -/
def digits (w : UInt16) : Checked (Nibble × Nibble × Nibble) := do
  let x ← nibble ((w &&& 0x0F00) >>> 8).toNat
  let y ← nibble ((w &&& 0x00F0) >>> 4).toNat
  let n ← nibble (w &&& 0x000F).toNat
  return (x, y, n)

/-- Reads an instruction, after its digits. -/
def decode (w : UInt16) : Checked Instruction := do
  let _ ← digits w
  return .ofWord w

def push (s : CallStack) (address : UInt16) : Checked CallStack :=
  if h : s.depth < CallStack.capacity then do
    let _ ← sum sizeWidth s.depth 1
    return { slots := s.slots.set s.depth address, depth := s.depth + 1, depth_le := h }
  else throw (.index CallStack.capacity s.depth)

def pop (s : CallStack) : Checked (UInt16 × CallStack) := do
  let depth ← difference s.depth 1
  let address ← cell s.slots depth
  if h : depth ≤ CallStack.capacity then
    return (address, { slots := s.slots, depth := depth, depth_le := h })
  else throw (.index CallStack.capacity depth)

def isHeld (k : Keypad) (key : Nat) : Checked Bool :=
  if key ≤ 15 then do
    let mask ← shiftLeft 16 1 key
    return (k.held &&& BitVec.ofNat 16 mask) != 0
  else return false

def press (k : Keypad) (key : Nibble) : Checked Keypad := do
  let mask ← shiftLeft 16 1 key
  return { held := k.held ||| BitVec.ofNat 16 mask, pending := some key }

def release (k : Keypad) (key : Nibble) : Checked Keypad := do
  let mask ← shiftLeft 16 1 key
  return { k with held := k.held &&& ~~~BitVec.ofNat 16 mask }

def toggle (d : Display) (x y : Nat) (on : Bool) : Checked (Bool × Display) := do
  let row ← cell d.rows (y % Display.height)
  let lit ← cell row (x % Display.width)
  let row ← setCell row (x % Display.width) (lit ^^ on)
  let rows ← setCell d.rows (y % Display.height) row
  return (lit && on, ⟨rows⟩)

/-- The registers after an operation on Vx and Vy, in the order of its reads and writes. -/
def apply (v : Registers) (op : Arithmetic) (x y : Nat) : Checked Registers := do
  let a ← cell v x
  let b ← cell v y
  match op with
  | .copy => setCell v x b
  | .or => setCell v x (a ||| b)
  | .and => setCell v x (a &&& b)
  | .xor => setCell v x (a ^^^ b)
  | .add => do
    let v ← setCell v x (a + b)
    setCell v 0xF (flagByte (decide (a.toNat + b.toNat > 255)))
  | .sub => do
    let v ← setCell v 0xF (flagByte (decide (a > b)))
    setCell v x (a - b)
  | .shiftRight => do
    let v ← setCell v 0xF (a % 2)
    setCell v x (a / 2)
  | .subFrom => do
    let v ← setCell v 0xF (flagByte (decide (b > a)))
    setCell v x (b - a)
  | .shiftLeft => do
    let v ← setCell v 0xF (a / 128)
    setCell v x (a + a)

/-! ## Sprites -/

/-- Draws the square of a sprite in row `row` and column `col`; `byte` is its row. -/
def paint (x y row : Nat) (byte : UInt8) (c : Sprite.Canvas) (col : Nat) :
    Checked Sprite.Canvas := do
  let distance ← difference 7 col
  let bits ← shiftRight 8 byte.toNat distance
  let left ← cell c.regs x
  let left ← sum sizeWidth left.toNat col
  let top ← cell c.regs y
  let top ← sum sizeWidth top.toNat row
  let (erased, display) ← toggle c.display left top (bits % 2 == 1)
  if erased then do
    let regs ← setCell c.regs 0xF 1
    return ⟨display, regs⟩
  else return ⟨display, c.regs⟩

/-- Draws the row `row` of the sprite at I. -/
def paintRow (m : Machine) (x y : Nat) (c : Sprite.Canvas) (row : Nat) :
    Checked Sprite.Canvas := do
  let address ← sum sizeWidth m.index.toNat row
  let byte ← cell m.memory address
  (List.range 8).foldlM (paint x y row byte) c

def draw (m : Machine) (x y n : Nat) : Checked Sprite.Canvas := do
  let regs ← setCell m.regs 0xF 0
  (List.range n).foldlM (paintRow m x y) ⟨m.display, regs⟩

/-! ## Instructions -/

open Machine (ran)

/-- Goes on with `next` if the `length` bytes from I on lie in memory. -/
def within (m : Machine) (length : Nat) (next : Checked (Answer × Machine)) :
    Checked (Answer × Machine) := do
  let stop ← sum sizeWidth m.index.toNat length
  if stop ≤ Memory.size then next else return m.faulted (.memoryOutOfBounds m.index)

def setReg (m : Machine) (x : Nat) (byte : UInt8) : Checked Machine := do
  let regs ← setCell m.regs x byte
  return { m with regs := regs }

/-- Moves the program counter past one more instruction if `c` holds of Vx. -/
def skip (m : Machine) (x : Nat) (c : UInt8 → Checked Bool) : Checked (Answer × Machine) := do
  let a ← cell m.regs x
  let taken ← c a
  return ran (m.skipIf taken)

/-- Puts the decimal digits of Vx into memory from I on. -/
def putDecimal (m : Machine) (x : Nat) : Checked Machine := do
  let value ← cell m.regs x
  let memory ← setCell m.memory m.index.toNat (value / 100)
  let memory ← setCell memory (← sum sizeWidth m.index.toNat 1) (value / 10 % 10)
  let memory ← setCell memory (← sum sizeWidth m.index.toNat 2) (value % 10)
  return { m with memory := memory }

/-- Copies the first `count` registers to memory from I on. -/
def storeRegs (m : Machine) (count : Nat) : Checked Machine := do
  let stop ← sum sizeWidth m.index.toNat count
  let values ← slice m.regs 0 count
  let memory ← copySlice m.memory m.index.toNat stop values
  return { m with memory := memory }

/-- Copies memory from I on to the first `count` registers. -/
def loadRegs (m : Machine) (count : Nat) : Checked Machine := do
  let stop ← sum sizeWidth m.index.toNat count
  let values ← slice m.memory m.index.toNat stop
  let regs ← copySlice m.regs 0 count values
  return { m with regs := regs }

/-- Carries out an instruction on a machine whose program counter is already past it. -/
def execute (m : Machine) : Instruction → Checked (Answer × Machine)
  | .sys target | .jump target => return ran { m with pc := target.val.toUInt16 }
  | .jumpOffset target => do
    let offset ← cell m.regs 0
    return ran { m with pc := target.val.toUInt16 + offset.toUInt16 }
  | .call target =>
    if m.stack.depth = CallStack.capacity then return m.faulted .stackOverflow
    else do
      let stack ← push m.stack m.pc
      return ran { m with stack := stack, pc := target.val.toUInt16 }
  | .ret =>
    if m.stack.depth = 0 then return m.faulted .stackUnderflow
    else do
      let (address, stack) ← pop m.stack
      return ran { m with stack := stack, pc := address }
  | .skipEqByte x nn => skip m x fun a => return a == nn
  | .skipNeByte x nn => skip m x fun a => return a != nn
  | .skipEqReg x y => skip m x fun a => return a == (← cell m.regs y)
  | .skipNeReg x y => skip m x fun a => return a != (← cell m.regs y)
  | .setByte x nn => return ran (← setReg m x nn)
  | .addByte x nn => do
    let a ← cell m.regs x
    return ran (← setReg m x (a + nn))
  | .setIndex target => return ran { m with index := target.val.toUInt16 }
  | .addIndex x => do
    let a ← cell m.regs x
    return ran { m with index := m.index + a.toUInt16 }
  | .arithmetic op x y => do
    let regs ← apply m.regs op x y
    return ran { m with regs := regs }
  | .random x nn => do
    let next ← setReg m x (m.random.peek &&& nn)
    return ran { next with random := m.random.advance }
  | .clear => return ran { m with display := Display.blank }
  | .draw x y n => within m n do
    let canvas ← draw m x y n
    return ran { m with display := canvas.display, regs := canvas.regs }
  | .skipHeld x => skip m x fun a => isHeld m.keypad a.toNat
  | .skipNotHeld x => skip m x fun a => return !(← isHeld m.keypad a.toNat)
  | .waitKey x =>
    match m.keypad.pending with
    | some key => do
      let next ← setReg m x key.val.toUInt8
      return ran { next with keypad := m.keypad.take }
    | none => return (.ok .waiting, { m with pc := m.pc - 2 })
  | .readDelay x => return ran (← setReg m x m.delay)
  | .setDelay x => do
    let a ← cell m.regs x
    return ran { m with delay := a }
  | .setSound x => do
    let a ← cell m.regs x
    return ran { m with sound := a }
  | .glyph x => do
    let digit ← cell m.regs x
    if digit.toNat ≤ 15 then do
      let offset ← product sizeWidth digit.toNat Font.glyphSize
      let address ← sum sizeWidth Font.start offset
      return ran { m with index := address.toUInt16 }
    else return m.faulted (.invalidFontDigit digit)
  | .decimal x => within m 3 do return ran (← putDecimal m x)
  | .store x => do
    let count ← sum sizeWidth x 1
    within m count do return ran (← storeRegs m count)
  | .load x => do
    let count ← sum sizeWidth x 1
    within m count do return ran (← loadRegs m count)
  | .unknown word => return m.faulted (.unknownInstruction word)

/-! ## The machine -/

/-- A machine at the first instruction of a program. -/
def boot (rom : List UInt8) (speed : Nat) (random : Random.Stream) : Checked Machine := do
  let memory := Vector.replicate Memory.size 0
  let memory ← copySlice memory Font.start Font.stop Font.glyphs
  let stop ← sum sizeWidth Memory.romStart rom.length
  let memory ← copySlice memory Memory.romStart stop rom
  return { Machine.boot [] speed random with memory := memory }

def load (m : Machine) (rom : List UInt8) : Checked (Except Fault Machine) := do
  let capacity ← difference Memory.size Memory.romStart
  if rom.length ≤ capacity then return .ok (← boot rom m.speed m.random)
  else return .error (.romTooLarge rom.length capacity)

/-- Fetches an instruction and carries it out, as far as there is no fault. -/
def attempt (m : Machine) : Checked (Answer × Machine) :=
  match m.fetch with
  | .ok word => do execute m.advance (← decode word)
  | .error fault => return m.faulted fault

def step (m : Machine) : Checked (Answer × Machine) :=
  if m.paused then return (.ok .paused, m)
  else do
    match ← attempt m with
    | (.ok outcome, next) => return (.ok outcome, next)
    | (.error fault, next) => return (.error fault, { next with pc := m.pc, paused := true })

/-- Runs one frame. The frames since the last tick are counted in a byte. -/
def cycle (m : Machine) : Checked (Answer × Machine) := do
  let count ← sum 8 m.sinceTick 1
  if m.speed ≤ count then step { m.tick with sinceTick := 0 }
  else step { m with sinceTick := count }

def setSpeed (m : Machine) (speed : Nat) : Checked Machine := do
  let speed ← clamp Machine.minSpeed Machine.maxSpeed speed
  return { m with speed := speed }

def pressKey (m : Machine) (key : UInt8) : Checked Machine :=
  match Nibble.ofNat? key.toNat with
  | some k => do
    let keypad ← press m.keypad k
    return { m with keypad := keypad }
  | none => return m

def releaseKey (m : Machine) (key : UInt8) : Checked Machine :=
  match Nibble.ofNat? key.toNat with
  | some k => do
    let keypad ← release m.keypad k
    return { m with keypad := keypad }
  | none => return m

/-! ## The host's calls -/

/-- The width of the number that counts the frames of a pacer. -/
def frameWidth : Nat := 64

def runFrame (p : Pacer) : Checked (Answer × Pacer) := do
  let frames ← sum frameWidth p.frames 1
  let (answer, machine) ← cycle p.machine
  return (answer, { p with machine := machine, frames := frames })

/-- Runs frames while one is owed, `budget` of them at most, and counts them in 32 bits. -/
def drain : (budget : Nat) → (last : Outcome) → Pacer → Checked (Answer × Pacer)
  | 0, last, p =>
    return if Pacer.frameStep ≤ p.owed then (.ok last, { p with owed := 0 }) else (.ok last, p)
  | budget + 1, last, p =>
    if Pacer.frameStep ≤ p.owed then do
      match ← runFrame { p with owed := p.owed - Pacer.frameStep } with
      | (.ok outcome, next) => do
        let _ ← sum 32 (Pacer.maxFrames - (budget + 1)) 1
        drain budget outcome next
      | (.error fault, next) => return (.error fault, next)
    else return (.ok last, p)

def update (p : Pacer) (dt : Float32) : Checked (Answer × Pacer) :=
  drain Pacer.maxFrames (if p.machine.paused then .paused else .idle)
    { p with owed := p.owed + dt }

/-- Puts a machine back into its pacer. -/
def quiet (p : Pacer) (machine : Checked Machine) :
    Checked (Except Fault (Option Outcome) × Pacer) := do
  return (.ok none, { p with machine := ← machine })

/-- Carries out a call. The speed is a byte, and a speed that would leave it stays at its end. -/
def perform (p : Pacer) : Call → Checked (Except Fault (Option Outcome) × Pacer)
  | .load rom => do
    match ← load p.machine rom with
    | .ok machine => return (.ok none, { p with machine := machine })
    | .error fault => return (.error fault, p)
  | .step => return p.answered (← step p.machine)
  | .cycle => return p.answered (← cycle p.machine)
  | .runFrame => return (← runFrame p).map (·.map some) id
  | .update dt => return (← update p dt).map (·.map some) id
  | .tick => quiet p (return p.machine.tick)
  | .press key => quiet p (pressKey p.machine key)
  | .release key => quiet p (releaseKey p.machine key)
  | .setSpeed speed => quiet p (setSpeed p.machine speed.toNat)
  | .speedUp => quiet p (setSpeed p.machine (min 255 (p.machine.speed + 1)))
  | .speedDown => quiet p (setSpeed p.machine (p.machine.speed - 1))

/-- The replies to a list of calls, and the pacer after them. -/
def performAll (p : Pacer) : List Call →
    Checked (List (Except Fault (Option Outcome)) × Pacer)
  | [] => return ([], p)
  | call :: calls => do
    let (reply, next) ← perform p call
    let (replies, last) ← performAll next calls
    return (reply :: replies, last)

def ofSeed (seed : UInt64) : Checked Pacer := do
  return { machine := ← boot [] Machine.minSpeed { key := .ofSeed seed } }

end Checked

end Chip8
