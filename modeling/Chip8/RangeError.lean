/-!
# Requests outside a range

Some operations are defined on a range of numbers only: the sixteen values of a hexadecimal digit,
the rows and columns of the display. `RangeError` names the range that a request missed.
-/

namespace Chip8

/-- A request outside the range that an operation is defined on. -/
inductive RangeError where
  /-- A number of more than four bits where a hexadecimal digit is wanted. -/
  | notANibble
  /-- An index at or past the end of a sequence. -/
  | outside (length index : Nat)
deriving DecidableEq, Repr

def RangeError.message : RangeError → String
  | .notANibble => "u4 value must be in range 0x0-0xF"
  | .outside length index => s!"index out of bounds: the len is {length} but the index is {index}"

end Chip8
