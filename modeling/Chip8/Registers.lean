import Chip8.Nibble

/-!
# Registers

The sixteen byte registers and the two-operand operations on them. The last register, VF, takes
the carry, borrow or lost bit. The sum writes its flag after the result and all others before it,
so with VF as the destination the sum leaves the flag there and the others leave the result.
-/

namespace Chip8

/-- The registers V0 to VF. -/
abbrev Registers := Vector UInt8 16

/-- A register is read by its name. -/
instance : GetElem Registers Nibble UInt8 fun _ _ => True where
  getElem v x _ := v.get x

/-- The registers with `byte` in Vx. -/
def Registers.set (v : Registers) (x : Nibble) (byte : UInt8) : Registers := Vector.set v x byte

theorem Registers.getElem?_val (v : Registers) (x : Nibble) : v[x.val]? = some v[x] :=
  Vector.getElem?_eq_getElem x.isLt

theorem Registers.getElem_set_self (v : Registers) (x : Nibble) (byte : UInt8) :
    (v.set x byte)[x] = byte :=
  Vector.getElem_set_self x.isLt

theorem Registers.getElem_set_of_ne (v : Registers) {x y : Nibble} (h : y ≠ x) (byte : UInt8) :
    (v.set x byte)[y] = v[y] :=
  Vector.getElem_set_ne x.isLt y.isLt (Fin.val_ne_iff.mpr h.symm)

theorem Registers.getElem_set (v : Registers) (x k : Nibble) (byte : UInt8) :
    (v.set x byte)[k] = if k = x then byte else v[k] := by
  split
  · next h => exact h ▸ v.getElem_set_self x byte
  · next h => exact v.getElem_set_of_ne h byte

theorem Registers.set_set (v : Registers) (x : Nibble) (a b : UInt8) :
    (v.set x a).set x b = v.set x b :=
  Vector.set_set a x.isLt

theorem Registers.ext {v w : Registers} (h : ∀ k : Nibble, v[k] = w[k]) : v = w :=
  Vector.ext fun i hi => h ⟨i, hi⟩

/-- The register that operations use for their flag: VF. -/
def flag : Nibble := 15

def flagByte (b : Bool) : UInt8 := if b then 1 else 0

/-- An operation on two registers; its result goes to the first one. -/
inductive Arithmetic where
  | copy
  | or
  | and
  | xor
  /-- The sum, with a flag for a carry. -/
  | add
  /-- The first operand less the second, with a flag if the first is greater. -/
  | sub
  /-- Half the first operand, with its lowest bit as the flag. -/
  | shiftRight
  /-- The second operand less the first, with a flag if the second is greater. -/
  | subFrom
  /-- Twice the first operand, with its highest bit as the flag. -/
  | shiftLeft
deriving DecidableEq, Repr

/-- The registers after an operation on Vx and Vy. Both operands are read before a write. -/
def Registers.apply (v : Registers) (op : Arithmetic) (x y : Nibble) : Registers :=
  let a := v[x]
  let b := v[y]
  match op with
  | .copy => v.set x b
  | .or => v.set x (a ||| b)
  | .and => v.set x (a &&& b)
  | .xor => v.set x (a ^^^ b)
  | .add => (v.set x (a + b)).set flag (flagByte (decide (a.toNat + b.toNat > 255)))
  | .sub => (v.set flag (flagByte (decide (a > b)))).set x (a - b)
  | .shiftRight => (v.set flag (a % 2)).set x (a / 2)
  | .subFrom => (v.set flag (flagByte (decide (b > a)))).set x (b - a)
  | .shiftLeft => (v.set flag (a / 128)).set x (a + a)

end Chip8
