import Chip8.Nibble

/-!
# The keypad

Sixteen keys, each held or not, and the last press that no instruction has taken yet. A press and a
release change what is held for their own key only (`isHeld_press`, `isHeld_release`), and a press
stays pending after its key was released.
-/

namespace Chip8

/-- The keys held down, one bit per key, and the press still to be taken. -/
structure Keypad where
  held : BitVec 16 := 0
  pending : Option Nibble := none
deriving DecidableEq, Repr

namespace Keypad

def idle : Keypad := {}

/-- Whether the key is held. Numbers above 15 are no keys and never held. -/
def isHeld (k : Keypad) (key : Nat) : Bool := k.held.getLsbD key

/-- Holds the key down and makes it the pending press. -/
def press (k : Keypad) (key : Nibble) : Keypad :=
  { held := k.held ||| BitVec.twoPow 16 key, pending := some key }

def release (k : Keypad) (key : Nibble) : Keypad :=
  { k with held := k.held &&& ~~~BitVec.twoPow 16 key }

def take (k : Keypad) : Keypad := { k with pending := none }

@[simp] theorem isHeld_idle (key : Nat) : idle.isHeld key = false := by
  simp [idle, isHeld]

theorem isHeld_press (k : Keypad) (key : Nibble) (i : Nat) :
    (k.press key).isHeld i = (k.isHeld i || decide (key.val = i)) := by
  have := key.isLt
  simp only [isHeld, press, BitVec.getLsbD_or, BitVec.getLsbD_twoPow]
  by_cases h : key.val = i
  · subst h; simp
  · simp [h]

theorem isHeld_release (k : Keypad) (key : Nibble) (i : Nat) :
    (k.release key).isHeld i = (k.isHeld i && decide (key.val ≠ i)) := by
  simp only [isHeld, release, BitVec.getLsbD_and, BitVec.getLsbD_not, BitVec.getLsbD_twoPow]
  by_cases hi : i < 16
  · by_cases h : key.val = i <;> simp [h, hi]
  · simp [BitVec.getLsbD_of_ge k.held i (by omega)]

@[simp] theorem isHeld_take (k : Keypad) (i : Nat) : k.take.isHeld i = k.isHeld i := rfl

theorem isHeld_eq_false_of_le (k : Keypad) {i : Nat} (h : 16 ≤ i) : k.isHeld i = false :=
  BitVec.getLsbD_of_ge k.held i h

end Keypad

end Chip8
