import Chip8.Memory
import Chip8.Registers

/-!
# Instructions

An instruction is a word of sixteen bits, read as four hexadecimal digits. The first one selects a
group, and within a group the others are operands or select further: `x` and `y` name registers,
`nn` is a byte, `nnn` an address and `n` a number of rows. `Instruction.ofWord` reads a word and is
total, since words without a meaning become `unknown`. `Instruction.toWord` writes one.
-/

namespace Chip8

/-- An instruction with its operands. -/
inductive Instruction where
  /-- `0nnn`: go on at `nnn`. -/
  | sys (target : Address)
  /-- `1nnn`: go on at `nnn`. -/
  | jump (target : Address)
  /-- `Bnnn`: go on at `nnn` plus V0. -/
  | jumpOffset (target : Address)
  /-- `2nnn`: call the subroutine at `nnn`. -/
  | call (target : Address)
  /-- `00EE`: return from a subroutine. -/
  | ret
  /-- `3xnn`: skip the next instruction if Vx is `nn`. -/
  | skipEqByte (x : Nibble) (nn : UInt8)
  /-- `4xnn`: skip the next instruction unless Vx is `nn`. -/
  | skipNeByte (x : Nibble) (nn : UInt8)
  /-- `5xyN`: skip the next instruction if Vx is Vy; the last digit has no meaning. -/
  | skipEqReg (x y : Nibble)
  /-- `9xyN`: skip the next instruction unless Vx is Vy; the last digit has no meaning. -/
  | skipNeReg (x y : Nibble)
  /-- `6xnn`: set Vx to `nn`. -/
  | setByte (x : Nibble) (nn : UInt8)
  /-- `7xnn`: add `nn` to Vx, without a flag. -/
  | addByte (x : Nibble) (nn : UInt8)
  /-- `Annn`: set I to `nnn`. -/
  | setIndex (target : Address)
  /-- `Fx1E`: add Vx to I, without a flag. -/
  | addIndex (x : Nibble)
  /-- `8xyN`: an operation on Vx and Vy, selected by the last digit. -/
  | arithmetic (op : Arithmetic) (x y : Nibble)
  /-- `Cxnn`: set Vx to a random byte masked by `nn`. -/
  | random (x : Nibble) (nn : UInt8)
  /-- `00E0`: clear the display. -/
  | clear
  /-- `Dxyn`: draw the sprite of `n` rows at I, at column Vx and row Vy. -/
  | draw (x y : Nibble) (n : Nibble)
  /-- `Ex9E`: skip the next instruction if the key Vx is held. -/
  | skipHeld (x : Nibble)
  /-- `ExA1`: skip the next instruction unless the key Vx is held. -/
  | skipNotHeld (x : Nibble)
  /-- `Fx0A`: wait for a press and put its key into Vx. -/
  | waitKey (x : Nibble)
  /-- `Fx07`: set Vx to the delay timer. -/
  | readDelay (x : Nibble)
  /-- `Fx15`: set the delay timer to Vx. -/
  | setDelay (x : Nibble)
  /-- `Fx18`: set the sound timer to Vx. -/
  | setSound (x : Nibble)
  /-- `Fx29`: set I to the glyph of the digit Vx. -/
  | glyph (x : Nibble)
  /-- `Fx33`: store the three decimal digits of Vx from I on. -/
  | decimal (x : Nibble)
  /-- `Fx55`: store V0 to Vx from I on. -/
  | store (x : Nibble)
  /-- `Fx65`: load V0 to Vx from I on. -/
  | load (x : Nibble)
  | unknown (word : UInt16)
deriving DecidableEq, Repr

namespace Instruction

/-! ## The parts of a word -/

/-- The first digit, which selects the group. -/
def groupOf (w : UInt16) : Nat := w.toNat / 4096

/-- The second digit. -/
def xOf (w : UInt16) : Nibble := Fin.ofNat 16 (w.toNat / 256)

/-- The third digit. -/
def yOf (w : UInt16) : Nibble := Fin.ofNat 16 (w.toNat / 16)

def nOf (w : UInt16) : Nibble := Fin.ofNat 16 w.toNat

def byteOf (w : UInt16) : UInt8 := UInt8.ofNat w.toNat

def addressOf (w : UInt16) : Address := Fin.ofNat Memory.size w.toNat

/-- The operation that the last digit of an `8xyN` selects. -/
def arithmeticOf? : Nat → Option Arithmetic
  | 0x0 => some .copy
  | 0x1 => some .or
  | 0x2 => some .and
  | 0x3 => some .xor
  | 0x4 => some .add
  | 0x5 => some .sub
  | 0x6 => some .shiftRight
  | 0x7 => some .subFrom
  | 0xE => some .shiftLeft
  | _ => none

def ofWord (w : UInt16) : Instruction :=
  match groupOf w with
  | 0x0 =>
    if w = 0x00E0 then .clear
    else if w = 0x00EE then .ret
    else .sys (addressOf w)
  | 0x1 => .jump (addressOf w)
  | 0x2 => .call (addressOf w)
  | 0x3 => .skipEqByte (xOf w) (byteOf w)
  | 0x4 => .skipNeByte (xOf w) (byteOf w)
  | 0x5 => .skipEqReg (xOf w) (yOf w)
  | 0x6 => .setByte (xOf w) (byteOf w)
  | 0x7 => .addByte (xOf w) (byteOf w)
  | 0x8 =>
    match arithmeticOf? (nOf w) with
    | some op => .arithmetic op (xOf w) (yOf w)
    | none => .unknown w
  | 0x9 => .skipNeReg (xOf w) (yOf w)
  | 0xA => .setIndex (addressOf w)
  | 0xB => .jumpOffset (addressOf w)
  | 0xC => .random (xOf w) (byteOf w)
  | 0xD => .draw (xOf w) (yOf w) (nOf w)
  | 0xE =>
    match (byteOf w).toNat with
    | 0x9E => .skipHeld (xOf w)
    | 0xA1 => .skipNotHeld (xOf w)
    | _ => .unknown w
  | _ =>
    match (byteOf w).toNat with
    | 0x07 => .readDelay (xOf w)
    | 0x0A => .waitKey (xOf w)
    | 0x15 => .setDelay (xOf w)
    | 0x18 => .setSound (xOf w)
    | 0x1E => .addIndex (xOf w)
    | 0x29 => .glyph (xOf w)
    | 0x33 => .decimal (xOf w)
    | 0x55 => .store (xOf w)
    | 0x65 => .load (xOf w)
    | _ => .unknown w

/-! ## Words of instructions -/

def addressWord (group : Nat) (target : Address) : UInt16 :=
  UInt16.ofNat (group * 4096 + target)

def byteWord (group : Nat) (x : Nibble) (nn : Nat) : UInt16 :=
  UInt16.ofNat (group * 4096 + x * 256 + nn)

def registerWord (group : Nat) (x y : Nibble) (n : Nat) : UInt16 :=
  UInt16.ofNat (group * 4096 + x * 256 + y * 16 + n)

/-- The last digit that selects an operation. -/
def digitOf : Arithmetic → Nat
  | .copy => 0x0
  | .or => 0x1
  | .and => 0x2
  | .xor => 0x3
  | .add => 0x4
  | .sub => 0x5
  | .shiftRight => 0x6
  | .subFrom => 0x7
  | .shiftLeft => 0xE

/-- The word of an instruction; a digit without a meaning is written as 0. -/
def toWord : Instruction → UInt16
  | .sys target => addressWord 0x0 target
  | .jump target => addressWord 0x1 target
  | .jumpOffset target => addressWord 0xB target
  | .call target => addressWord 0x2 target
  | .ret => 0x00EE
  | .skipEqByte x nn => byteWord 0x3 x nn.toNat
  | .skipNeByte x nn => byteWord 0x4 x nn.toNat
  | .skipEqReg x y => registerWord 0x5 x y 0
  | .skipNeReg x y => registerWord 0x9 x y 0
  | .setByte x nn => byteWord 0x6 x nn.toNat
  | .addByte x nn => byteWord 0x7 x nn.toNat
  | .setIndex target => addressWord 0xA target
  | .addIndex x => byteWord 0xF x 0x1E
  | .arithmetic op x y => registerWord 0x8 x y (digitOf op)
  | .random x nn => byteWord 0xC x nn.toNat
  | .clear => 0x00E0
  | .draw x y n => registerWord 0xD x y n
  | .skipHeld x => byteWord 0xE x 0x9E
  | .skipNotHeld x => byteWord 0xE x 0xA1
  | .waitKey x => byteWord 0xF x 0x0A
  | .readDelay x => byteWord 0xF x 0x07
  | .setDelay x => byteWord 0xF x 0x15
  | .setSound x => byteWord 0xF x 0x18
  | .glyph x => byteWord 0xF x 0x29
  | .decimal x => byteWord 0xF x 0x33
  | .store x => byteWord 0xF x 0x55
  | .load x => byteWord 0xF x 0x65
  | .unknown word => word

end Instruction

end Chip8
