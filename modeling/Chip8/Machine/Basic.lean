import Chip8.CallStack
import Chip8.Fault
import Chip8.Keypad
import Chip8.Memory
import Chip8.Random
import Chip8.Sprite

/-!
# The machine

Everything that a running program can see or change, together with what paces its timers. A machine
starts from the key of its random bytes (`Machine.ofKey`), and a program is put into it by
`Machine.load`, which keeps the speed and the random stream and nothing else: all that the last
program left behind is gone. A program that does not fit is refused.
-/

namespace Chip8

/-- What a call that runs the machine reports when nothing went wrong. -/
inductive Outcome where
  | ran
  /-- The instruction waits for a key and will be tried again. -/
  | waiting
  /-- The machine is paused and nothing was carried out. -/
  | paused
  /-- No frame was due. -/
  | idle
deriving DecidableEq, Repr

/-- The answer of a call that runs the machine. -/
abbrev Answer := Except Fault Outcome

structure Machine where
  memory : Memory
  display : Display
  /-- The address of the next instruction. -/
  pc : UInt16
  /-- The register I, an address that instructions work on. -/
  index : UInt16
  regs : Registers
  stack : CallStack
  delay : UInt8
  sound : UInt8
  keypad : Keypad
  /-- Set by a fault, and cleared only by loading a program. -/
  paused : Bool
  /-- The number of frames from one tick of the timers to the next. -/
  speed : Nat
  /-- The number of frames since the timers last ticked. -/
  sinceTick : Nat
  random : Random.Stream
deriving DecidableEq

namespace Machine

/-- The least number of frames to a tick. -/
def minSpeed : Nat := 1

/-- The greatest number of frames to a tick. -/
def maxSpeed : Nat := 5

/-! ## Starting and loading -/

/-- A machine at the first instruction of a program. -/
def boot (rom : List UInt8) (speed : Nat) (random : Random.Stream) : Machine where
  memory := Memory.image rom
  display := Display.blank
  pc := UInt16.ofNat Memory.romStart
  index := 0
  regs := Vector.replicate 16 0
  stack := CallStack.empty
  delay := 0
  sound := 0
  keypad := Keypad.idle
  paused := false
  speed := speed
  sinceTick := 0
  random := random

/-- A machine without a program, whose random bytes come from `key`. -/
def ofKey (key : Random.Key) : Machine := boot [] minSpeed { key }

def ofSeed (seed : UInt64) : Machine := ofKey (.ofSeed seed)

/-- The machine with a program loaded, unless the program is too large. -/
def load (m : Machine) (rom : List UInt8) : Except Fault Machine :=
  if rom.length ≤ Memory.romCapacity then .ok (boot rom m.speed m.random)
  else .error (.romTooLarge rom.length Memory.romCapacity)

/-! ## Keys, speed and sound -/

/-- Presses a key. Numbers above 15 are no keys, and nothing happens. -/
def press (m : Machine) (key : UInt8) : Machine :=
  match Nibble.ofNat? key.toNat with
  | some k => { m with keypad := m.keypad.press k }
  | none => m

/-- Releases a key. Numbers above 15 are no keys, and nothing happens. -/
def release (m : Machine) (key : UInt8) : Machine :=
  match Nibble.ofNat? key.toNat with
  | some k => { m with keypad := m.keypad.release k }
  | none => m

/-- Sets the number of frames to a tick, or the nearest one allowed. -/
def setSpeed (m : Machine) (speed : Nat) : Machine :=
  { m with speed := max minSpeed (min maxSpeed speed) }

/-- Lets the timers tick after one more frame. -/
def speedUp (m : Machine) : Machine := m.setSpeed (m.speed + 1)

/-- Lets the timers tick after one frame less. -/
def speedDown (m : Machine) : Machine := m.setSpeed (m.speed - 1)

def hasSound (m : Machine) : Bool := decide (m.sound ≠ 0)

theorem hasSound_iff (m : Machine) : m.hasSound = true ↔ 0 < m.sound.toNat := by
  rw [hasSound, decide_eq_true_iff, Nat.pos_iff_ne_zero]
  exact not_congr UInt8.toNat_inj.symm

/-! ## Showing the registers -/

def summary (m : Machine) : String :=
  let regs := " ".intercalate (m.regs.toList.map fun r => Numeral.hex 2 r.toNat)
  "V: " ++ regs ++ " PC: 0x" ++ Numeral.hex 4 m.pc.toNat ++ " SP: " ++ toString m.stack.top ++
    " I: 0x" ++ Numeral.hex 4 m.index.toNat ++ " ST: " ++ toString m.sound.toNat

end Machine

end Chip8
