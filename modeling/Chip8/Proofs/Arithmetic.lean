import Mathlib.Logic.Function.Basic
import Chip8.Proofs.Footprints

/-!
# Arithmetic

The operations on two registers, told in numbers. An operation comes down to one or two
assignments, to Vx and to VF, whose values are fixed before the first of them is made
(`Assigns`). Their order matters when VF is the destination: the sum assigns its flag last, and the
differences and shifts assign it first.

`arithmetic_law` says that `8xyN` carries these assignments out and does nothing else, whichever
registers its operands are.
-/

namespace Chip8

/-- What the registers hold, as numbers. -/
def Registers.numbers (v : Registers) (k : Nibble) : Nat := v[k].toNat

/-- What registers hold after assignments, the first one first. -/
def assigned (v : Nibble → Nat) : List (Nibble × Nat) → Nibble → Nat
  | [] => v
  | (r, value) :: later => assigned (Function.update v r value) later

/-- The assignments of `8xyN`, by its last digit. The operands are `a` and `b`. -/
inductive Assigns (a b : Nat) (x : Nibble) : (n : Nat) → List (Nibble × Nat) → Prop where
  | copy : Assigns a b x 0x0 [(x, b)]
  | or : Assigns a b x 0x1 [(x, a ||| b)]
  | and : Assigns a b x 0x2 [(x, a &&& b)]
  | xor : Assigns a b x 0x3 [(x, a ^^^ b)]
  /-- The sum and then its carry. -/
  | add : Assigns a b x 0x4 [(x, (a + b) % 256), (flag, if 255 < a + b then 1 else 0)]
  /-- The difference, but first whether it is positive. -/
  | sub : Assigns a b x 0x5 [(flag, if b < a then 1 else 0), (x, (a + 256 - b) % 256)]
  /-- Half of `a`, but first the bit that is lost. -/
  | shiftRight : Assigns a b x 0x6 [(flag, a % 2), (x, a / 2)]
  | subFrom : Assigns a b x 0x7 [(flag, if a < b then 1 else 0), (x, (b + 256 - a) % 256)]
  /-- Twice `a`, but first the bit that is lost. -/
  | shiftLeft : Assigns a b x 0xE [(flag, a / 128), (x, 2 * a % 256)]

/-! ## Assignments -/

section

variable {v : Nibble → Nat} {writes : List (Nibble × Nat)} {k : Nibble}

theorem assigned_of_other (h : ∀ w ∈ writes, w.1 ≠ k) : assigned v writes k = v k := by
  induction writes generalizing v with
  | nil => rfl
  | cons w later ih =>
    obtain ⟨hw, hlater⟩ := List.forall_mem_cons.mp h
    rw [assigned, ih hlater, Function.update_of_ne hw.symm]

theorem assigned_concat (r : Nibble) (value : Nat) :
    assigned v (writes ++ [(r, value)]) = Function.update (assigned v writes) r value := by
  induction writes generalizing v with
  | nil => rfl
  | cons w later ih => exact ih

theorem assigned_pair {r s : Nibble} (h : r ≠ s) (a b : Nat) :
    assigned v [(r, a), (s, b)] r = a ∧ assigned v [(r, a), (s, b)] s = b :=
  ⟨by rw [assigned, assigned, assigned, Function.update_of_ne h, Function.update_self],
    by rw [assigned, assigned, assigned, Function.update_self]⟩

end

section

variable {a b : Nat} {x : Nibble} {n : Nat} {writes : List (Nibble × Nat)} {v : Nibble → Nat}

/-- Only Vx and VF are assigned to, and VF on its own account not by a bitwise operation. -/
theorem Assigns.target (h : Assigns a b x n writes) :
    ∀ w ∈ writes, w.1 = x ∨ (w.1 = flag ∧ 3 < n) := by
  cases h <;> simp

theorem Assigns.assigned_other (h : Assigns a b x n writes) {k : Nibble} (hx : k ≠ x)
    (hflag : n ≤ 3 ∨ k ≠ flag) : assigned v writes k = v k := by
  apply assigned_of_other
  rintro w hw rfl
  rcases h.target w hw with heq | ⟨heq, hlt⟩
  · exact hx heq
  · exact hflag.elim (fun hle => Nat.not_le.mpr hlt hle) fun hne => hne heq

/-- With VF as the destination the last assignment stays. -/
theorem Assigns.getLast?_eq (h : Assigns a b flag n writes) :
    writes.getLast? = some (flag, assigned v writes flag) := by
  have hnil : writes ≠ [] := by cases h <;> exact List.cons_ne_nil _ _
  obtain ⟨earlier, ⟨r, value⟩, rfl⟩ := (List.eq_nil_or_concat' writes).resolve_left hnil
  obtain rfl : r = flag := (h.target _ List.mem_concat_self).elim id And.left
  rw [assigned_concat, Function.update_self, List.getLast?_concat]

theorem Assigns.add_eq (h : Assigns a b x 0x4 writes) (hx : x ≠ flag) (ha : a < 256)
    (hb : b < 256) : a + b = 256 * assigned v writes flag + assigned v writes x := by
  cases h
  rw [(assigned_pair hx _ _).1, (assigned_pair hx _ _).2]
  split <;> omega

theorem Assigns.shiftRight_eq (h : Assigns a b x 0x6 writes) (hx : x ≠ flag) :
    a = 2 * assigned v writes x + assigned v writes flag := by
  cases h
  rw [(assigned_pair hx.symm _ _).1, (assigned_pair hx.symm _ _).2]
  omega

theorem Assigns.shiftLeft_eq (h : Assigns a b x 0xE writes) (hx : x ≠ flag) :
    2 * a = 256 * assigned v writes flag + assigned v writes x := by
  cases h
  rw [(assigned_pair hx.symm _ _).1, (assigned_pair hx.symm _ _).2]
  omega

end

/-! ## Registers -/

namespace Registers

theorem numbers_set (v : Registers) (x : Nibble) (byte : UInt8) :
    (v.set x byte).numbers = Function.update v.numbers x byte.toNat := by
  funext k
  rw [numbers, getElem_set, Function.update_apply]
  split <;> rfl

theorem toNat_flagByte (c : Prop) [Decidable c] :
    (flagByte (decide c)).toNat = if c then 1 else 0 := by
  by_cases h : c <;> simp [flagByte, h]

theorem toNat_difference (a b : UInt8) : (a - b).toNat = (a.toNat + 256 - b.toNat) % 256 := by
  have := b.toNat_lt
  rw [UInt8.toNat_sub]
  omega

/-- An operation makes its assignments. -/
theorem numbers_apply {v : Registers} {x y : Nibble} {n : Nat} {writes : List (Nibble × Nat)}
    (h : Assigns v[x].toNat v[y].toNat x n writes) :
    ∃ op, Instruction.digitOf op = n ∧
      (v.apply op x y).numbers = assigned v.numbers writes := by
  cases h with
  | copy => exact ⟨.copy, rfl, numbers_set v x _⟩
  | or => exact ⟨.or, rfl, by rw [apply, numbers_set, UInt8.toNat_or]; rfl⟩
  | and => exact ⟨.and, rfl, by rw [apply, numbers_set, UInt8.toNat_and]; rfl⟩
  | xor => exact ⟨.xor, rfl, by rw [apply, numbers_set, UInt8.toNat_xor]; rfl⟩
  | add =>
    refine ⟨.add, rfl, ?_⟩
    rw [apply, numbers_set, numbers_set, toNat_flagByte, UInt8.toNat_add]
    rfl
  | sub =>
    refine ⟨.sub, rfl, ?_⟩
    rw [apply, numbers_set, numbers_set, toNat_flagByte, toNat_difference]
    rfl
  | shiftRight =>
    refine ⟨.shiftRight, rfl, ?_⟩
    rw [apply, numbers_set, numbers_set, UInt8.toNat_mod, UInt8.toNat_div]
    rfl
  | subFrom =>
    refine ⟨.subFrom, rfl, ?_⟩
    rw [apply, numbers_set, numbers_set, toNat_flagByte, toNat_difference]
    rfl
  | shiftLeft =>
    refine ⟨.shiftLeft, rfl, ?_⟩
    rw [apply, numbers_set, numbers_set, UInt8.toNat_add, UInt8.toNat_div, ← Nat.two_mul]
    rfl

end Registers

namespace Machine

/-- What `8xyN` does. The registers change by its assignments, which leave all but Vx and VF alone,
and VF too if the operation is a bitwise one on another register; if both are the same register, the
last assignment stays. Otherwise the flag and the result of the sum make up the whole sum, and those
of a shift the whole operand or twice of it. -/
theorem arithmetic_law (m : Machine) (x y n : Nibble) (writes : List (Nibble × Nat))
    (h : Assigns m.regs[x].toNat m.regs[y].toNat x n writes) :
    let word := Instruction.registerWord 0x8 x y n
    let next := (m.execute (.ofWord word)).2
    let vx := next.regs[x].toNat
    let vf := next.regs[flag].toNat
    (m.execute (.ofWord word)).1 = .ok .ran ∧
    (m.paused = false → m.WordAtPc word → m.step = m.execute (.ofWord word)) ∧
    next = { m with regs := next.regs, pc := m.pc + 2 } ∧
    next.regs.numbers = assigned m.regs.numbers writes ∧
    (∀ k, k ≠ x → k ≠ flag → next.regs[k] = m.regs[k]) ∧
    (n.val ≤ 3 → x ≠ flag → next.regs[flag] = m.regs[flag]) ∧
    (x = flag → writes.getLast? = some (flag, vf)) ∧
    (x ≠ flag → n.val = 0x4 → m.regs[x].toNat + m.regs[y].toNat = 256 * vf + vx) ∧
    (x ≠ flag → n.val = 0x6 → m.regs[x].toNat = 2 * vx + vf) ∧
    (x ≠ flag → n.val = 0xE → 2 * m.regs[x].toNat = 256 * vf + vx) := by
  intro word next vx vf
  obtain ⟨op, hdigit, hnumbers⟩ := Registers.numbers_apply h
  have hword : Instruction.ofWord word = .arithmetic op x y := by
    show Instruction.ofWord (Instruction.registerWord 0x8 x y n) = _
    rw [← hdigit]
    exact Instruction.ofWord_toWord (i := .arithmetic op x y) trivial
  have hexecute : m.execute (.ofWord word) = (.ok .ran, m.after (.arithmetic op x y)) := by
    rw [hword]
    exact execute_eq_after rfl
  have hnext : next = m.after (.arithmetic op x y) := congrArg Prod.snd hexecute
  have hregs : next.regs = m.regs.apply op x y := congrArg Machine.regs hnext
  rw [← hregs] at hnumbers
  have hnumber : ∀ k, next.regs[k].toNat = assigned m.regs.numbers writes k :=
    fun k => congrFun hnumbers k
  have ha := m.regs[x].toNat_lt
  have hb := m.regs[y].toNat_lt
  refine ⟨by rw [hexecute], fun hp hw => ?_, ?_, hnumbers, fun k hx hflag => ?_, fun hn hx => ?_,
    ?_, fun hx hn => ?_, fun hx hn => ?_, fun hx hn => ?_⟩
  · rw [step_eq_after hp (fetch_of_wordAtPc hw) (hword ▸ rfl), hexecute, hword]
    rfl
  · rw [hnext]
    rfl
  · exact UInt8.toNat_inj.mp ((hnumber k).trans (h.assigned_other hx (.inr hflag)))
  · exact UInt8.toNat_inj.mp ((hnumber flag).trans (h.assigned_other hx.symm (.inl hn)))
  · rintro rfl
    show writes.getLast? = some (flag, next.regs[flag].toNat)
    rw [hnumber]
    exact h.getLast?_eq
  · rw [hn] at h
    exact (h.add_eq hx ha hb).trans (by rw [← hnumber, ← hnumber])
  · rw [hn] at h
    exact (h.shiftRight_eq hx).trans (by rw [← hnumber, ← hnumber])
  · rw [hn] at h
    exact (h.shiftLeft_eq hx).trans (by rw [← hnumber, ← hnumber])

/-- `8FF4` doubles VF and then puts the carry there. `8F15` takes V1 from VF and leaves the
difference there, since that is put there after the flag. -/
theorem arithmetic_law_flag :
    let m := { boot [0x8F, 0xF4] minSpeed { key := .ofSeed 0 } with
      regs := Registers.set (Vector.replicate 16 50) flag 200 }
    m.paused = false ∧ m.step.1 = .ok .ran ∧ m.step.2.regs[flag].toNat = 1 ∧
      (m.execute (.ofWord 0x8F15)).2.regs[flag].toNat = 150 := by
  intro m
  have hw : m.WordAtPc (Instruction.registerWord 0x8 flag flag 4) :=
    wordAtPc_of_image 0x8F 0xF4 [] rfl rfl (by decide)
  obtain ⟨hran, hstep, _, hsum, _⟩ := arithmetic_law m flag flag 4 _ .add
  obtain ⟨_, _, _, hdifference, _⟩ := arithmetic_law m flag 1 5 _ .sub
  rw [hstep rfl hw]
  refine ⟨rfl, hran, ?_, ?_⟩
  · exact (congrFun hsum flag).trans (by decide)
  · exact (congrFun hdifference flag).trans (by decide)

end Machine

end Chip8
