import Chip8.Proofs.Bounds
import Chip8.Proofs.Words

/-!
# Control flow

Where a program goes on after an instruction, told by the word at the program counter. There are
four kinds of words: those that name the place themselves (`Transfers`), those that may skip the
next instruction (`Skips`), the wait for a key, and all others, which lead to the next instruction.
`Continues` puts the four together; no two of them apply to one word, and one of them always does.

* `continues_iff`: a step without a fault goes on as `Continues` tells and in no other way.
* `pc_law`: so only a transfer leads an instruction that ran back to itself.
-/

namespace Chip8.Machine

open Instruction (addressWord byteWord registerWord)

/-! ## Words that steer -/

/-- The instruction with the word goes on at `target`, wherever it stands itself. -/
inductive Transfers (m : Machine) : UInt16 → Nat → Prop where
  /-- `0nnn`, but for the words of two other instructions. -/
  | sys (target : Address) (h : target.val ≠ 0x0E0 ∧ target.val ≠ 0x0EE) :
      Transfers m (addressWord 0x0 target) target
  | jump (target : Address) : Transfers m (addressWord 0x1 target) target
  | call (target : Address) : Transfers m (addressWord 0x2 target) target
  /-- `Bnnn`; the sum is a sum of numbers and does not wrap. -/
  | jumpOffset (target : Address) :
      Transfers m (addressWord 0xB target) (target + m.regs[(0 : Nibble)].toNat)
  /-- `00EE` goes on at the newest return address. -/
  | ret (address : UInt16) (h : m.stack.toList.getLast? = some address) :
      Transfers m 0x00EE address.toNat

/-- A key whose number is in Vx, and which is held. -/
def HeldAt (m : Machine) (x : Nibble) : Prop :=
  m.regs[x].toNat ≤ 15 ∧ m.keypad.isHeld m.regs[x].toNat = true

/-- The instruction with the word skips the next one if `condition` holds. -/
inductive Skips (m : Machine) : UInt16 → (condition : Prop) → Prop where
  | eqByte (x : Nibble) (nn : UInt8) : Skips m (byteWord 0x3 x nn.toNat) (m.regs[x] = nn)
  | neByte (x : Nibble) (nn : UInt8) : Skips m (byteWord 0x4 x nn.toNat) (m.regs[x] ≠ nn)
  /-- `5xyN`, whatever the last digit is. -/
  | eqReg (x y n : Nibble) : Skips m (registerWord 0x5 x y n) (m.regs[x] = m.regs[y])
  /-- `9xyN`, whatever the last digit is. -/
  | neReg (x y n : Nibble) : Skips m (registerWord 0x9 x y n) (m.regs[x] ≠ m.regs[y])
  | held (x : Nibble) : Skips m (byteWord 0xE x 0x9E) (m.HeldAt x)
  | notHeld (x : Nibble) : Skips m (byteWord 0xE x 0xA1) (¬ m.HeldAt x)

/-- The instruction with the word, if it has no fault, has the given outcome and goes on at
`target`. -/
inductive Continues (m : Machine) (word : UInt16) : Outcome → (target : Nat) → Prop where
  | transfer {target : Nat} (h : m.Transfers word target) : Continues m word .ran target
  | skip {condition : Prop} (h : m.Skips word condition) (hc : condition) :
      Continues m word .ran (m.pc.toNat + 4)
  | noSkip {condition : Prop} (h : m.Skips word condition) (hc : ¬ condition) :
      Continues m word .ran (m.pc.toNat + 2)
  /-- `Fx0A` stays where it is until there is a press. -/
  | stall (x : Nibble) (hw : word = byteWord 0xF x 0x0A) (h : m.keypad.pending = none) :
      Continues m word .waiting m.pc.toNat
  | pressed (x : Nibble) (hw : word = byteWord 0xF x 0x0A) (h : m.keypad.pending ≠ none) :
      Continues m word .ran (m.pc.toNat + 2)
  | next (hassigned : ¬ Instruction.Unassigned word) (htransfers : ∀ target, ¬ m.Transfers word target)
      (hskips : ∀ condition, ¬ m.Skips word condition) (hwaits : ∀ x, word ≠ byteWord 0xF x 0x0A) :
      Continues m word .ran (m.pc.toNat + 2)

theorem exists_continues (m : Machine) {word : UInt16} (h : ¬ Instruction.Unassigned word) :
    ∃ outcome target, m.Continues word outcome target := by
  by_cases htransfers : ∃ target, m.Transfers word target
  · obtain ⟨target, ht⟩ := htransfers
    exact ⟨_, _, .transfer ht⟩
  by_cases hskips : ∃ condition, m.Skips word condition
  · obtain ⟨condition, hs⟩ := hskips
    by_cases hc : condition
    · exact ⟨_, _, .skip hs hc⟩
    · exact ⟨_, _, .noSkip hs hc⟩
  by_cases hwaits : ∃ x, word = byteWord 0xF x 0x0A
  · obtain ⟨x, hw⟩ := hwaits
    by_cases hp : m.keypad.pending = none
    · exact ⟨_, _, .stall x hw hp⟩
    · exact ⟨_, _, .pressed x hw hp⟩
  · exact ⟨_, _, .next h (not_exists.mp htransfers) (not_exists.mp hskips) (not_exists.mp hwaits)⟩

/-! ## Instructions that steer -/

/-- The instruction, if it has no fault, has the given outcome and goes on at `target`. -/
def LeadsTo (m : Machine) (i : Instruction) (outcome : Outcome) (target : Nat) : Prop :=
  m.outcomeOf i = outcome ∧ (m.pcAfter i).toNat = target

section

variable {m : Machine} {word : UInt16}

theorem leadsTo_ofWord {i : Instruction} {outcome : Outcome} {target : Nat}
    (h : m.LeadsTo i outcome target) (hi : i.Readable) (n : Nibble) :
    m.LeadsTo (.ofWord (i.toWordWith n)) outcome target := by
  rwa [Instruction.ofWord_toWordWith hi]

theorem pcAfter_ret {address : UInt16} (h : m.stack.toList.getLast? = some address) :
    m.pcAfter .ret = address := by
  have hpop := CallStack.toList_pop? m.stack
  rw [h] at hpop
  cases hs : m.stack.pop? with
  | none =>
    rw [hs] at hpop
    cases hpop
  | some popped =>
    rw [hs] at hpop
    rw [pcAfter, hs]
    exact congrArg Prod.fst (Option.some.inj hpop)

theorem leadsTo_of_transfers {target : Nat} (h : m.Transfers word target) :
    m.LeadsTo (.ofWord word) .ran target := by
  cases h with
  | sys target h => exact leadsTo_ofWord (i := .sys target) ⟨rfl, toNat_target target⟩ h 0
  | jump target => exact leadsTo_ofWord (i := .jump target) ⟨rfl, toNat_target target⟩ trivial 0
  | call target => exact leadsTo_ofWord (i := .call target) ⟨rfl, toNat_target target⟩ trivial 0
  | jumpOffset target =>
    exact leadsTo_ofWord (i := .jumpOffset target) ⟨rfl, toNat_offset target _⟩ trivial 0
  | ret address h =>
    exact leadsTo_ofWord (i := .ret) ⟨rfl, congrArg UInt16.toNat (pcAfter_ret h)⟩ trivial 0

theorem heldAt_iff {x : Nibble} :
    m.HeldAt x ↔ m.keypad.isHeld m.regs[x].toNat = true := by
  constructor
  · exact And.right
  · intro h
    refine ⟨?_, h⟩
    by_contra hle
    rw [Keypad.isHeld_eq_false_of_le _ (Nat.lt_of_not_le hle)] at h
    cases h

/-- An instruction that skips the next one if its condition holds. -/
theorem leadsTo_of_skip (hpc : m.pc.toNat ≤ 4350) {i : Instruction} {condition : Prop} {skip : Bool}
    (hi : i.Readable) (n : Nibble) (houtcome : m.outcomeOf i = .ran)
    (hafter : m.pcAfter i = m.pcPast skip) (hskip : skip = true ↔ condition) :
    (condition → m.LeadsTo (.ofWord (i.toWordWith n)) .ran (m.pc.toNat + 4)) ∧
    (¬ condition → m.LeadsTo (.ofWord (i.toWordWith n)) .ran (m.pc.toNat + 2)) := by
  have hpast := toNat_pcPast hpc skip
  rw [← hafter] at hpast
  rw [← hskip]
  constructor
  · rintro rfl
    exact leadsTo_ofWord ⟨houtcome, hpast⟩ hi n
  · intro hfalse
    obtain rfl : skip = false := Bool.eq_false_iff.mpr hfalse
    exact leadsTo_ofWord ⟨houtcome, hpast⟩ hi n

theorem leadsTo_of_skips (hpc : m.pc.toNat ≤ 4350) {condition : Prop}
    (h : m.Skips word condition) :
    (condition → m.LeadsTo (.ofWord word) .ran (m.pc.toNat + 4)) ∧
    (¬ condition → m.LeadsTo (.ofWord word) .ran (m.pc.toNat + 2)) := by
  cases h with
  | eqByte x nn =>
    exact leadsTo_of_skip hpc (i := .skipEqByte x nn) trivial 0 rfl rfl beq_iff_eq
  | neByte x nn =>
    exact leadsTo_of_skip hpc (i := .skipNeByte x nn) trivial 0 rfl rfl bne_iff_ne
  | eqReg x y n =>
    exact leadsTo_of_skip hpc (i := .skipEqReg x y) trivial n rfl rfl beq_iff_eq
  | neReg x y n =>
    exact leadsTo_of_skip hpc (i := .skipNeReg x y) trivial n rfl rfl bne_iff_ne
  | held x =>
    exact leadsTo_of_skip hpc (i := .skipHeld x) trivial 0 rfl rfl heldAt_iff.symm
  | notHeld x =>
    refine leadsTo_of_skip hpc (i := .skipNotHeld x) trivial 0 rfl rfl ?_
    rw [heldAt_iff, Bool.not_eq_true, Bool.not_eq_true']

/-- An instruction of no other kind leads to the next one. -/
theorem leadsTo_next (hpc : m.pc.toNat ≤ 4350) (hfault : m.faultOf (.ofWord word) = none)
    (htransfers : ∀ target, ¬ m.Transfers word target)
    (hskips : ∀ condition, ¬ m.Skips word condition) (hwaits : ∀ x, word ≠ byteWord 0xF x 0x0A) :
    m.LeadsTo (.ofWord word) .ran (m.pc.toNat + 2) := by
  have hword := Instruction.toWordWith_ofWord word
  have hreadable := Instruction.readable_ofWord word
  have hpast := toNat_pcPast hpc false
  generalize Instruction.nOf word = n at hword
  generalize Instruction.ofWord word = i at hword hreadable hfault
  subst hword
  cases i
  case sys target => exact absurd (.sys target hreadable) (htransfers _)
  case jump target => exact absurd (.jump target) (htransfers _)
  case jumpOffset target => exact absurd (.jumpOffset target) (htransfers _)
  case call target => exact absurd (.call target) (htransfers _)
  case ret =>
    have hsome : m.stack.toList ≠ [] := by
      intro hnil
      have hdepth : m.stack.depth = 0 := by rw [← CallStack.length_toList, hnil, List.length_nil]
      rw [faultOf, if_pos hdepth] at hfault
      cases hfault
    exact absurd (.ret _ (List.getLast?_eq_some_getLast hsome)) (htransfers _)
  case skipEqByte x nn => exact absurd (.eqByte x nn) (hskips _)
  case skipNeByte x nn => exact absurd (.neByte x nn) (hskips _)
  case skipEqReg x y => exact absurd (.eqReg x y n) (hskips _)
  case skipNeReg x y => exact absurd (.neReg x y n) (hskips _)
  case skipHeld x => exact absurd (.held x) (hskips _)
  case skipNotHeld x => exact absurd (.notHeld x) (hskips _)
  case waitKey x => exact absurd rfl (hwaits x)
  all_goals exact ⟨rfl, hpast⟩

theorem leadsTo_of_continues (hpc : m.pc.toNat ≤ 4350) (hfault : m.faultOf (.ofWord word) = none)
    {outcome : Outcome} {target : Nat} (h : m.Continues word outcome target) :
    m.LeadsTo (.ofWord word) outcome target := by
  have hpast := toNat_pcPast hpc false
  cases h with
  | transfer h => exact leadsTo_of_transfers h
  | skip h hc => exact (leadsTo_of_skips hpc h).1 hc
  | noSkip h hc => exact (leadsTo_of_skips hpc h).2 hc
  | stall x hw h =>
    rw [hw]
    exact leadsTo_ofWord (i := .waitKey x) ⟨if_pos h, congrArg UInt16.toNat (if_pos h)⟩ trivial 0
  | pressed x hw h =>
    rw [hw]
    refine leadsTo_ofWord (i := .waitKey x) ⟨if_neg h, ?_⟩ trivial 0
    exact (congrArg UInt16.toNat (if_neg h)).trans hpast
  | next _ htransfers hskips hwaits => exact leadsTo_next hpc hfault htransfers hskips hwaits

end

/-! ## Steps -/

/-- A step without a fault goes on as `Continues` tells, and in no other way. -/
theorem continues_iff {m : Machine} {word : UInt16} (hw : m.fetch = .ok word)
    (hfault : m.faultOf (.ofWord word) = none) {outcome : Outcome} {target : Nat} :
    m.Continues word outcome target ↔ m.LeadsTo (.ofWord word) outcome target := by
  have hpc : m.pc.toNat ≤ 4350 := by
    have := (wordAtPc_of_fetch hw).2
    omega
  have hassigned : ¬ Instruction.Unassigned word := by
    intro h
    rw [Instruction.ofWord_of_unassigned h] at hfault
    cases hfault
  refine ⟨leadsTo_of_continues hpc hfault, fun ⟨houtcome, htarget⟩ => ?_⟩
  obtain ⟨outcome', target', h⟩ := m.exists_continues hassigned
  obtain ⟨houtcome', htarget'⟩ := leadsTo_of_continues hpc hfault h
  rwa [← houtcome, ← htarget, houtcome', htarget']

/-- Where a step goes on, and with which outcome, for every machine that is not paused and whose
step finds no fault. A step waits exactly if its instruction is `Fx0A` and no press is pending, and
else it ran. If it ran and is to be run again, its instruction named its own place. -/
theorem pc_law (m : Machine) (outcome : Outcome) (hp : m.paused = false)
    (hs : m.step.1 = .ok outcome) :
    ∃ word, m.WordAtPc word ∧
      (∀ o target, m.Continues word o target ↔ o = outcome ∧ target = m.step.2.pc.toNat) ∧
      (outcome = .waiting ↔ m.keypad.pending = none ∧ ∃ x, word = byteWord 0xF x 0x0A) ∧
      (outcome ≠ .waiting → outcome = .ran) ∧
      (outcome = .ran → m.step.2.pc = m.pc → m.Transfers word m.pc.toNat) := by
  obtain ⟨word, hw, hfault, houtcome, hnext⟩ := exists_of_step_ok hp hs
  have hpc : m.step.2.pc = m.pcAfter (.ofWord word) := by rw [hnext]; rfl
  have hcontinues : ∀ o target,
      m.Continues word o target ↔ o = outcome ∧ target = m.step.2.pc.toNat := by
    intro o target
    rw [continues_iff hw hfault, LeadsTo, houtcome, hpc]
    exact and_congr eq_comm eq_comm
  obtain ⟨target, htarget, hgoes⟩ :
      ∃ target, target = m.step.2.pc.toNat ∧ m.Continues word outcome target :=
    ⟨_, rfl, (hcontinues _ _).mpr ⟨rfl, rfl⟩⟩
  refine ⟨word, (wordAtPc_of_fetch hw).1, hcontinues, ⟨?_, ?_⟩, ?_, ?_⟩
  · rintro rfl
    cases hgoes with
    | stall x hx hnone => exact ⟨hnone, x, hx⟩
  · rintro ⟨hnone, x, hx⟩
    exact ((hcontinues _ _).mp (.stall x hx hnone)).1.symm
  · intro hne
    cases hgoes with
    | stall => exact absurd rfl hne
    | _ => rfl
  · rintro rfl hsame
    rw [hsame] at htarget
    cases hgoes with
    | transfer h => exact htarget ▸ h
    | skip | noSkip | pressed | next => omega

/-- `E3A1` with 19 in V3, which is no key: the next instruction is skipped although key 3 is held. -/
theorem pc_law_no_key :
    let m := { boot [0xE3, 0xA1] minSpeed { key := .ofSeed 0 } with
      regs := (Vector.replicate 16 0 : Registers).set 3 0x13
      keypad := Keypad.idle.press 3 }
    m.paused = false ∧ m.step.1 = .ok .ran ∧
      ∃ word, m.WordAtPc word ∧ m.Continues word .ran 0x204 := by
  intro m
  obtain ⟨hran, hpc⟩ : m.step.1 = .ok .ran ∧ m.step.2.pc.toNat = 0x204 := by decide +kernel
  obtain ⟨word, hw, hcontinues, _⟩ := pc_law m .ran rfl hran
  exact ⟨rfl, hran, word, hw, (hcontinues .ran 0x204).mpr ⟨rfl, hpc.symm⟩⟩

end Chip8.Machine
