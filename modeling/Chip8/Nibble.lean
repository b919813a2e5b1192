import Chip8.RangeError

/-!
# Four-bit values

A nibble is the value of one hexadecimal digit. It names a register, a key or the height of a
sprite. A number is a nibble exactly when it is below sixteen (`ofNat?_eq_some_iff`).
-/

namespace Chip8

/-- A value of four bits: a hexadecimal digit, and so the name of a register or of a key. -/
abbrev Nibble := Fin 16

namespace Nibble

/-- So that numerals are nibbles. -/
instance neZero : @NeZero Nat Zero.ofOfNat0 16 := ⟨by decide⟩

/-- The nibble `n`, if `n` is below sixteen. -/
def ofNat? (n : Nat) : Option Nibble :=
  if h : n < 16 then some ⟨n, h⟩ else none

/-- The nibble `n`, or the range that `n` missed. -/
def ofNat (n : Nat) : Except RangeError Nibble :=
  match ofNat? n with
  | some k => .ok k
  | none => .error .notANibble

theorem ofNat?_eq_some_iff {n : Nat} {k : Nibble} : ofNat? n = some k ↔ k.val = n := by
  unfold ofNat?
  split
  · rw [Option.some.injEq, Fin.ext_iff]
    exact eq_comm
  · next h => simp only [reduceCtorEq, false_iff]; omega

theorem ofNat?_eq_none_iff {n : Nat} : ofNat? n = none ↔ 16 ≤ n := by
  simp [ofNat?]

end Nibble

end Chip8
