import Chip8.Proofs.Effects
import Chip8.Proofs.Histories

/-!
# Bounds

What no history of calls can exceed (`bounds_performAll`). The bounds need each other, so they are
kept together (`Machine.Bounded`): an instruction is fetched from inside memory only, so the return
addresses lie in memory or just behind it, so a return leads no further than that. The furthest
place is reached by a jump with an offset.

The bound of the program counter is far from 65536, and no sum or difference that is taken of it
wraps (`Machine.PcExact`).
-/

namespace Chip8

namespace Machine

/-- The bounds that hold throughout. A return address is the address past a call. -/
structure Bounded (m : Machine) : Prop where
  returns : ∀ address ∈ m.stack.toList, 2 ≤ address.toNat ∧ address.toNat ≤ 4096
  pc_le : m.pc.toNat ≤ 0x10FE
  speed_pos : 1 ≤ m.speed
  speed_le : m.speed ≤ 5
  sinceTick_le : m.sinceTick ≤ 4

/-! ## Instructions -/

theorem toNat_pcPast {m : Machine} (hpc : m.pc.toNat ≤ 4350) (skip : Bool) :
    (m.pcPast skip).toNat = m.pc.toNat + if skip then 4 else 2 := by
  cases skip
  · show (m.pc + 2).toNat = m.pc.toNat + 2
    rw [UInt16.toNat_add]
    show (m.pc.toNat + 2) % 65536 = _
    omega
  · show (m.pc + 4).toNat = m.pc.toNat + 4
    rw [UInt16.toNat_add]
    show (m.pc.toNat + 4) % 65536 = _
    omega

theorem toNat_target (target : Address) : target.val.toUInt16.toNat = target.val := by
  have : target.val < 4096 := target.isLt
  show target.val % 65536 = _
  omega

theorem toNat_offset (target : Address) (byte : UInt8) :
    (target.val.toUInt16 + byte.toUInt16).toNat = target.val + byte.toNat := by
  have : target.val < 4096 := target.isLt
  have := byte.toNat_lt
  rw [UInt16.toNat_add, toNat_target, UInt8.toNat_toUInt16]
  omega

theorem pcPast_le {m : Machine} (hpc : m.pc.toNat ≤ 4094) (skip : Bool) :
    (m.pcPast skip).toNat ≤ 4098 := by
  rw [toNat_pcPast (by omega)]
  cases skip <;> simp <;> omega

theorem pcAfter_le {m : Machine} (hm : m.Bounded) (hpc : m.pc.toNat ≤ 4094) (i : Instruction) :
    (m.pcAfter i).toNat ≤ 0x10FE := by
  have hpast := fun skip => Nat.le_trans (pcPast_le hpc skip) (by decide : 4098 ≤ 0x10FE)
  cases i
  case ret =>
    unfold pcAfter
    cases hs : m.stack.pop? with
    | none => exact hm.pc_le
    | some r =>
      -- a call put the address there, so the bound of the return addresses applies
      obtain ⟨address, rest⟩ := r
      have hmem : address ∈ m.stack.toList := by
        rw [CallStack.toList_of_pop? hs]
        exact List.mem_append_right _ (List.mem_singleton_self _)
      exact Nat.le_trans (hm.returns address hmem).2 (by decide)
  case sys target | jump target | call target =>
    show target.val.toUInt16.toNat ≤ _
    rw [toNat_target]
    exact Nat.le_trans (Nat.le_of_lt target.isLt) (by decide)
  case jumpOffset target =>
    have : target.val < 4096 := target.isLt
    have := m.regs[0].toNat_lt
    show (target.val.toUInt16 + m.regs[0].toUInt16).toNat ≤ _
    rw [toNat_offset]
    omega
  case waitKey x =>
    show (if m.keypad.pending = none then m.pc else m.pcPast false).toNat ≤ 0x10FE
    split
    · exact hm.pc_le
    · exact hpast false
  all_goals exact hpast _

theorem returns_stackAfter {m : Machine} (hm : m.Bounded) (hpc : m.pc.toNat ≤ 4094)
    (i : Instruction) :
    ∀ address ∈ (m.stackAfter i).toList, 2 ≤ address.toNat ∧ address.toNat ≤ 4096 := by
  cases i
  case ret =>
    unfold stackAfter
    cases hs : m.stack.pop? with
    | none => exact hm.returns
    | some r =>
      obtain ⟨_, rest⟩ := r
      intro address hmem
      apply hm.returns
      rw [CallStack.toList_of_pop? hs]
      exact List.mem_append_left _ hmem
  case call target =>
    unfold stackAfter
    cases hs : m.stack.push? (m.pcPast false) with
    | none => exact hm.returns
    | some next =>
      intro address hmem
      rw [Option.getD_some, CallStack.toList_of_push? hs] at hmem
      rcases List.mem_append.mp hmem with hmem | hmem
      · exact hm.returns address hmem
      · rw [List.mem_singleton.mp hmem, toNat_pcPast (by omega)]
        simp
        omega
  all_goals exact hm.returns

/-! ## Actions -/

theorem bounded_boot {speed : Nat} (hpos : 1 ≤ speed) (hle : speed ≤ 5) (rom : List UInt8)
    (random : Random.Stream) : (boot rom speed random).Bounded where
  returns := fun address hmem => (List.not_mem_nil hmem).elim
  pc_le := (by decide : (UInt16.ofNat Memory.romStart).toNat ≤ 0x10FE)
  speed_pos := hpos
  speed_le := hle
  sinceTick_le := Nat.zero_le 4

theorem bounded_step {m : Machine} (hm : m.Bounded) : m.step.2.Bounded := by
  rcases step_cases m with ⟨_, hs⟩ | ⟨_, fault, _, hs⟩ | ⟨_, word, hw, _, hs⟩
  · rw [hs]
    exact hm
  · rw [hs]
    exact { hm with }
  · -- both bytes of the instruction were in memory
    have hpc : m.pc.toNat ≤ 4094 := by
      have := (wordAtPc_of_fetch hw).2
      omega
    rw [hs]
    exact { hm with
      returns := returns_stackAfter hm hpc _
      pc_le := pcAfter_le hm hpc _ }

theorem bounded_countFrame {m : Machine} (hm : m.Bounded) : m.countFrame.Bounded := by
  have hspeed := hm.speed_le
  unfold countFrame
  split
  · exact { hm with sinceTick_le := Nat.zero_le 4 }
  · next h =>
    have hle : m.sinceTick + 1 ≤ 4 := by omega
    exact { hm with sinceTick_le := hle }

theorem bounded_setSpeed {m : Machine} (hm : m.Bounded) (speed : Nat) :
    (m.setSpeed speed).Bounded :=
  { hm with
    speed_pos := Nat.le_max_left _ _
    speed_le := Nat.max_le.mpr ⟨by decide, Nat.min_le_left _ _⟩ }

theorem bounded_act (m : Machine) (a : Action) (hm : m.Bounded) : (m.act a).Bounded := by
  cases a
  case load rom =>
    show (if rom.length ≤ Memory.romCapacity then boot rom m.speed m.random else m).Bounded
    split
    · exact bounded_boot hm.speed_pos hm.speed_le rom m.random
    · exact hm
  case step => exact bounded_step hm
  case frame => exact bounded_step (bounded_countFrame hm)
  case tick => exact { hm with }
  case press key =>
    show (m.press key).Bounded
    unfold press
    split
    · exact { hm with }
    · exact hm
  case release key =>
    show (m.release key).Bounded
    unfold release
    split
    · exact { hm with }
    · exact hm
  case setSpeed speed => exact bounded_setSpeed hm speed

/-! ## The program counter -/

/-- No sum or difference that a step takes of the program counter wraps. -/
structure PcExact (m : Machine) : Prop where
  /-- To the second byte of an instruction. -/
  second : (m.pc + 1).toNat = m.pc.toNat + 1
  /-- Past an instruction. -/
  past : m.advance.pc.toNat = m.pc.toNat + 2
  /-- Past the next one too. -/
  skip : m.advance.advance.pc.toNat = m.pc.toNat + 4
  /-- Back to an instruction that waits. -/
  back : 2 ≤ m.advance.pc.toNat ∧ (m.advance.pc - 2).toNat = m.advance.pc.toNat - 2
  /-- To an address with an offset. -/
  offset : ∀ target : Address,
    (target.val.toUInt16 + m.regs[0].toUInt16).toNat = target.val + m.regs[0].toNat

theorem Bounded.pcExact {m : Machine} (hm : m.Bounded) : m.PcExact := by
  have hpc := hm.pc_le
  have hpast : m.advance.pc.toNat = m.pc.toNat + 2 := toNat_pcPast hpc false
  have hle : 2 ≤ m.advance.pc.toNat := by omega
  refine ⟨?_, hpast, ?_, ⟨hle, ?_⟩, fun target => toNat_offset target _⟩
  · rw [UInt16.toNat_add]
    show (m.pc.toNat + 1) % 65536 = _
    omega
  · show (m.pc + 2 + 2).toNat = _
    rw [← pcPast_true]
    exact toNat_pcPast hpc true
  · exact UInt16.toNat_sub_of_le _ 2 (UInt16.le_iff_toNat_le.mpr hle)

end Machine

namespace Pacer

/-- The bounds of every machine that a history of calls can lead to. That a cell of the display is 0
or 1 when it is read as a byte, and a pending key at most 15, is carried by their types. -/
theorem bounds_performAll (seed : UInt64) (calls : List Call) :
    let m := ((ofSeed seed).performAll calls).machine
    m.stack.toList.length ≤ 16 ∧
    (∀ address ∈ m.stack.toList, 2 ≤ address.toNat ∧ address.toNat ≤ 4096) ∧
    m.pc.toNat ≤ 0x10FE ∧
    (1 ≤ m.speed ∧ m.speed ≤ 5) ∧
    m.sinceTick ≤ 4 ∧
    (∀ row col, flagByte (m.display.get row col) = 0 ∨ flagByte (m.display.get row col) = 1) ∧
    (∀ key ∈ m.keypad.pending, key.val ≤ 15) ∧
    m.PcExact := by
  intro m
  have hstart : (Machine.ofSeed seed).Bounded :=
    Machine.bounded_boot (by decide) (by decide) [] { key := .ofSeed seed }
  have hm : m.Bounded := performAll_induction Machine.bounded_act (ofSeed seed) calls hstart
  refine ⟨?_, hm.returns, hm.pc_le, ⟨hm.speed_pos, hm.speed_le⟩, hm.sinceTick_le, ?_, ?_,
    hm.pcExact⟩
  · rw [CallStack.length_toList]
    exact m.stack.depth_le
  · intro row col
    cases m.display.get row col
    · exact .inl rfl
    · exact .inr rfl
  · intro key _
    exact Nat.le_of_lt_succ key.isLt

end Pacer

end Chip8
