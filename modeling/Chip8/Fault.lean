import Chip8.Numeral

/-!
# Faults

What can go wrong when a program is loaded or run. A fault holds the facts of its case and nothing
else; its wording is `Fault.message`.
-/

namespace Chip8

/-- A reason for which a program is refused or stopped. -/
inductive Fault where
  /-- A program of `size` bytes where at most `capacity` fit. -/
  | romTooLarge (size capacity : Nat)
  /-- An access outside memory, by its first address. -/
  | memoryOutOfBounds (address : UInt16)
  /-- A call with every slot of the call stack taken. -/
  | stackOverflow
  /-- A return without a call. -/
  | stackUnderflow
  /-- A glyph asked for a register value above 15. -/
  | invalidFontDigit (digit : UInt8)
  /-- A word that encodes no instruction. -/
  | unknownInstruction (word : UInt16)
deriving DecidableEq, Repr

def Fault.message : Fault → String
  | .romTooLarge size capacity =>
    s!"ROM is too large ({size} bytes), max size is {capacity} bytes"
  | .memoryOutOfBounds address =>
    "Memory access out of bounds at address 0x" ++ Numeral.hex 4 address.toNat
  | .stackOverflow => "Stack overflow: attempted to call a subroutine with a full call stack"
  | .stackUnderflow =>
    "Stack underflow: attempted to return from a subroutine with empty call stack"
  | .invalidFontDigit digit =>
    "Invalid font digit 0x" ++ Numeral.hex 2 digit.toNat ++ ", expected 0x0-0xF"
  | .unknownInstruction word => "Unknown instruction: 0x" ++ Numeral.hex 4 word.toNat

end Chip8
