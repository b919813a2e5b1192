import Chip8.Display
import Chip8.Registers

/-!
# Sprites

A sprite is a list of bytes, one per row, whose bits are the squares of the row with the highest
bit on the left. It is drawn square by square, from left to right and from top to bottom. The
place is read from two registers for each square anew: a sprite placed by VF moves when a
collision raises VF.
-/

namespace Chip8.Sprite

/-- A square of a sprite: its place within the sprite, and whether it is set. -/
structure Square where
  row : Nat
  col : Nat
  lit : Bool
deriving DecidableEq, Repr

/-- The eight squares of one row. -/
def squaresOfRow (row : Nat) (byte : UInt8) : List Square :=
  (List.range 8).map fun col => ⟨row, col, byte.toNat.testBit (7 - col)⟩

/-- The squares of a sprite in the order in which they are drawn. -/
def squares (bytes : List UInt8) : List Square :=
  bytes.zipIdx.flatMap fun (byte, row) => squaresOfRow row byte

/-- A display together with the registers that steer the drawing. -/
structure Canvas where
  display : Display
  regs : Registers
deriving DecidableEq

/-- Draws one square at its offset from (Vx, Vy), and sets VF to 1 if that put out a lit cell. -/
def Canvas.paint (x y : Nibble) (c : Canvas) (s : Square) : Canvas :=
  let (erased, display) :=
    c.display.toggle (c.regs[x].toNat + s.col) (c.regs[y].toNat + s.row) s.lit
  ⟨display, if erased then c.regs.set flag 1 else c.regs⟩

/-- Draws a whole sprite, after setting VF to 0. -/
def Canvas.draw (x y : Nibble) (bytes : List UInt8) (c : Canvas) : Canvas :=
  (squares bytes).foldl (Canvas.paint x y) ⟨c.display, c.regs.set flag 0⟩

end Chip8.Sprite
