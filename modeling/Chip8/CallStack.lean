/-!
# The call stack

Sixteen slots for return addresses, filled from the bottom. A return leaves its slot as it is, so
slots at and above the depth hold what was there before; the stack is seen through `toList`, the
return addresses in use with the oldest first, which does not show them.

* `toList_push?`: a push appends, and is refused only at sixteen addresses;
* `toList_pop?`: a pop takes the newest address away, and is refused only on the empty stack.
-/

namespace Chip8

abbrev CallStack.capacity : Nat := 16

/-- Slots for return addresses, of which the first `depth` are in use. -/
structure CallStack where
  slots : Vector UInt16 CallStack.capacity
  depth : Nat
  depth_le : depth ≤ CallStack.capacity := by omega
deriving DecidableEq

namespace CallStack

def empty : CallStack where
  slots := Vector.replicate capacity 0
  depth := 0

/-- The return addresses in use, oldest first. -/
def toList (s : CallStack) : List UInt16 := s.slots.toList.take s.depth

/-- The stack with `address` on top, if a slot is free. -/
def push? (s : CallStack) (address : UInt16) : Option CallStack :=
  if h : s.depth < capacity then
    some { slots := s.slots.set s.depth address, depth := s.depth + 1 }
  else none

/-- The newest return address and the stack without it, if there is one. -/
def pop? (s : CallStack) : Option (UInt16 × CallStack) :=
  have := s.depth_le
  if h : 0 < s.depth then
    some (s.slots[s.depth - 1], { slots := s.slots, depth := s.depth - 1 })
  else none

/-- The position of the newest return address, or -1 if there is none. -/
def top (s : CallStack) : Int := (s.depth : Int) - 1

@[simp] theorem toList_empty : empty.toList = [] := rfl

@[simp] theorem length_toList (s : CallStack) : s.toList.length = s.depth := by
  have := s.depth_le
  simp only [toList, List.length_take, Vector.length_toList]
  omega

theorem toList_push? (s : CallStack) (address : UInt16) :
    (s.push? address).map toList =
      if s.toList.length < capacity then some (s.toList ++ [address]) else none := by
  rw [length_toList]
  unfold push?
  split
  · rw [Option.map_some, Option.some.injEq]
    apply List.ext_getElem?
    intro i
    simp only [toList, List.getElem?_append, List.getElem?_take, Vector.getElem?_toList,
      Vector.getElem?_set, List.length_take, Vector.length_toList]
    have : min s.depth capacity = s.depth := by omega
    rw [this]
    by_cases hi : i < s.depth
    · rw [if_pos (by omega), if_neg (by omega), if_pos hi, if_pos hi]
    · by_cases hd : i = s.depth
      · subst hd
        rw [if_pos (by omega), if_pos rfl, if_neg hi, Nat.sub_self]
        rfl
      · rw [if_neg (by omega), if_neg hi, List.getElem?_eq_none (by simp; omega)]
  · rfl

theorem toList_pop? (s : CallStack) :
    s.pop?.map (fun (address, rest) => (address, rest.toList)) =
      s.toList.getLast?.map (fun address => (address, s.toList.dropLast)) := by
  obtain ⟨slots, depth, hle⟩ := s
  cases depth with
  | zero => rfl
  | succ d =>
    have hlen : (slots.toList.take (d + 1)).length = d + 1 := by
      rw [List.length_take, Vector.length_toList]; omega
    simp only [pop?, toList, dif_pos (Nat.succ_pos d), Option.map_some, List.dropLast_eq_take,
      List.getLast?_eq_getElem?, List.take_take, hlen, Nat.add_sub_cancel, List.getElem?_take]
    rw [if_pos (by omega), Vector.getElem?_toList, Vector.getElem?_eq_getElem (by omega),
      Nat.min_eq_left (by omega)]
    rfl

theorem toList_of_push? {s next : CallStack} {address : UInt16} (h : s.push? address = some next) :
    next.toList = s.toList ++ [address] := by
  have hl := toList_push? s address
  rw [h, Option.map_some] at hl
  split at hl
  · exact Option.some.inj hl
  · cases hl

theorem toList_of_pop? {s rest : CallStack} {address : UInt16} (h : s.pop? = some (address, rest)) :
    s.toList = rest.toList ++ [address] := by
  have hl := toList_pop? s
  rw [h, Option.map_some] at hl
  cases hlast : s.toList.getLast? with
  | none =>
    rw [hlast] at hl
    cases hl
  | some last =>
    rw [hlast] at hl
    obtain ⟨rfl, hrest⟩ := Prod.mk.inj (Option.some.inj hl)
    obtain ⟨older, holder⟩ := List.getLast?_eq_some_iff.mp hlast
    rw [hrest, holder, List.dropLast_concat]

end CallStack

end Chip8
