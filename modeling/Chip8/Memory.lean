import Chip8.Cells

/-!
# Memory

The 4096 bytes of memory and their map: the glyphs of the sixteen hexadecimal digits from address
0, programs from address 0x200 to the end. `Memory.image` is memory as a program finds it.
-/

namespace Chip8

abbrev Memory.size : Nat := 4096

/-- The bytes of memory by address. -/
abbrev Memory := Vector UInt8 Memory.size

/-- An address of twelve bits, as it stands in an instruction. -/
abbrev Address := Fin Memory.size

/-! ## Glyphs -/

namespace Font

/-- The address of the first glyph. -/
def start : Nat := 0

/-- The number of bytes of a glyph, one for each of its rows. -/
def glyphSize : Nat := 5

/-- The glyphs of the digits 0 to F, four cells wide and five high. -/
def glyphs : List UInt8 :=
  [0xF0, 0x90, 0x90, 0x90, 0xF0,
   0x20, 0x60, 0x20, 0x20, 0x70,
   0xF0, 0x10, 0xF0, 0x80, 0xF0,
   0xF0, 0x10, 0xF0, 0x10, 0xF0,
   0x90, 0x90, 0xF0, 0x10, 0x10,
   0xF0, 0x80, 0xF0, 0x10, 0xF0,
   0xF0, 0x80, 0xF0, 0x90, 0xF0,
   0xF0, 0x10, 0x20, 0x40, 0x40,
   0xF0, 0x90, 0xF0, 0x90, 0xF0,
   0xF0, 0x90, 0xF0, 0x10, 0xF0,
   0xF0, 0x90, 0xF0, 0x90, 0x90,
   0xE0, 0x90, 0xE0, 0x90, 0xE0,
   0xF0, 0x80, 0x80, 0x80, 0xF0,
   0xE0, 0x90, 0x90, 0x90, 0xE0,
   0xF0, 0x80, 0xF0, 0x80, 0xF0,
   0xF0, 0x80, 0xF0, 0x80, 0x80]

/-- The address after the last glyph. -/
def stop : Nat := start + glyphs.length

def glyphAddress (digit : Nat) : Nat := start + digit * glyphSize

end Font

/-! ## Programs -/

namespace Memory

/-- The address at which a program is put. -/
def romStart : Nat := 0x200

/-- The number of bytes that a program may have. -/
def romCapacity : Nat := size - romStart

/-- Memory with the glyphs and a program in place, and zeros elsewhere. -/
def image (rom : List UInt8) : Memory :=
  writeRun (writeRun (Vector.replicate size 0) Font.start Font.glyphs) romStart rom

theorem getElem?_image_rom {rom : List UInt8} {i : Nat} (hi : i < rom.length)
    (hfit : romStart + i < size) : (image rom)[romStart + i]? = rom[i]? := by
  rw [image, getElem?_writeRun, if_pos (by omega), Nat.add_sub_cancel_left]

/-- Whether `length` bytes from `start` on all lie in memory. The sum is not wrapped. -/
def InBounds (start : UInt16) (length : Nat) : Prop := start.toNat + length ≤ size

instance (start : UInt16) (length : Nat) : Decidable (InBounds start length) :=
  inferInstanceAs (Decidable (_ ≤ _))

end Memory

end Chip8
