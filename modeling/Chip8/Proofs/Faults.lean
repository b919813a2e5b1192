import Chip8.Proofs.Effects
import Chip8.Proofs.Histories
import Chip8.Proofs.Words

/-!
# Faults

When a step faults, and what is left of it then.

* `perform_of_fault`: a faulting step takes nothing but the pause with it, a faulting frame was
  counted before, and a program that is refused leaves no trace.
* `step_fault_iff`: the faults of a step, told by the program counter and the word there
  (`StepFault`, `WordFault`). In all other cases the step is carried out.
-/

namespace Chip8

namespace Machine

/-! ## What a fault leaves -/

theorem step_of_error {m : Machine} {fault : Fault} (h : m.step.1 = .error fault) :
    m.step.2 = { m with paused := true } := by
  rcases step_cases m with ⟨_, hs⟩ | ⟨_, f, _, hs⟩ | ⟨_, word, _, _, hs⟩
  · rw [hs] at h
    cases h
  · rw [hs]
  · rw [hs] at h
    cases h

theorem countdown_eq (timer : UInt8) : countdown timer = UInt8.ofNat (timer.toNat - 1) := by
  rw [← toNat_countdown, UInt8.ofNat_toNat]

/-- The machine after its timers ticked if a tick was due, and after the frame was counted. -/
def counted (m : Machine) : Machine :=
  let due := decide (m.speed ≤ m.sinceTick + 1)
  { m with
    delay := if due then UInt8.ofNat (m.delay.toNat - 1) else m.delay
    sound := if due then UInt8.ofNat (m.sound.toNat - 1) else m.sound
    sinceTick := if due then 0 else m.sinceTick + 1 }

theorem countFrame_eq_counted (m : Machine) : m.countFrame = m.counted := by
  unfold countFrame counted tick
  by_cases h : m.speed ≤ m.sinceTick + 1
  · simp only [h, if_true, decide_true, countdown_eq]
  · simp only [h, if_false, decide_false, Bool.false_eq_true]

end Machine

theorem Pacer.answered_error {p : Pacer} {r : Answer × Machine} {fault : Fault}
    (h : (p.answered r).1 = .error fault) : r.1 = .error fault := by
  obtain ⟨answer, m⟩ := r
  cases answer with
  | error f =>
    have hf : f = fault := Except.error.inj h
    exact congrArg _ hf
  | ok outcome => cases h

/-- A fault of a step pauses the machine and changes no more. A fault of a frame does the same to
the machine for which the frame was counted. A program that is refused changes nothing at all. -/
theorem Pacer.perform_of_fault (p : Pacer) (rom : List UInt8) (fault : Fault) :
    ((p.perform .step).1 = .error fault →
      (p.perform .step).2 = { p with machine := { p.machine with paused := true } }) ∧
    ((p.perform .cycle).1 = .error fault →
      (p.perform .cycle).2 = { p with machine := { p.machine.counted with paused := true } }) ∧
    ((p.perform (.load rom)).1 = .error fault → (p.perform (.load rom)).2 = p) := by
  refine ⟨?_, ?_, ?_⟩
  · intro h
    have hs := Machine.step_of_error (answered_error h)
    show { p with machine := p.machine.step.2 } = _
    rw [hs]
  · intro h
    have hs := Machine.step_of_error (answered_error h)
    show { p with machine := p.machine.countFrame.step.2 } = _
    rw [hs, Machine.countFrame_eq_counted]
  · intro h
    rw [perform_load] at h ⊢
    split at h
    · cases h
    · next hlt => rw [if_neg hlt]

/-- A return without a call while a press is pending, and a program of a byte too many. -/
theorem Pacer.perform_of_fault_underflow :
    let p := (Pacer.ofSeed 0).performAll [.load [0x00, 0xEE], .press 7, .setSpeed 2]
    (p.perform .step).2 = { p with machine := { p.machine with paused := true } } ∧
    (p.perform .cycle).2 = { p with machine := { p.machine.counted with paused := true } } ∧
    (p.perform (.load (List.replicate 3585 0))).2 = p :=
  ⟨(perform_of_fault _ [] .stackUnderflow).1 (by decide +kernel),
    (perform_of_fault _ [] .stackUnderflow).2.1 (by decide +kernel),
    (perform_of_fault _ _ (.romTooLarge 3585 3584)).2.2 (by decide +kernel)⟩

namespace Machine

/-! ## The faults of a step -/

/-- The faults of the instruction with a given word. Sums are sums of numbers and do not wrap. -/
inductive WordFault (m : Machine) : UInt16 → Fault → Prop where
  | unassigned {word : UInt16} (h : Instruction.Unassigned word) :
      WordFault m word (.unknownInstruction word)
  /-- `2nnn` with every slot of the stack taken. -/
  | call (target : Address) (h : m.stack.toList.length = 16) :
      WordFault m (Instruction.addressWord 0x2 target) .stackOverflow
  /-- `00EE` with no return address on the stack. -/
  | ret (h : m.stack.toList = []) : WordFault m 0x00EE .stackUnderflow
  /-- `Fx29` with a Vx that is no digit. -/
  | glyph (x : Nibble) (h : 15 < m.regs[x].toNat) :
      WordFault m (Instruction.byteWord 0xF x 0x29) (.invalidFontDigit m.regs[x])
  /-- `Fx33` without three bytes at I. -/
  | decimal (x : Nibble) (h : 4093 < m.index.toNat) :
      WordFault m (Instruction.byteWord 0xF x 0x33) (.memoryOutOfBounds m.index)
  /-- `Fx55` without x + 1 bytes at I. -/
  | store (x : Nibble) (h : 4095 < m.index.toNat + x) :
      WordFault m (Instruction.byteWord 0xF x 0x55) (.memoryOutOfBounds m.index)
  /-- `Fx65` without x + 1 bytes at I. -/
  | load (x : Nibble) (h : 4095 < m.index.toNat + x) :
      WordFault m (Instruction.byteWord 0xF x 0x65) (.memoryOutOfBounds m.index)
  /-- `Dxyn` without n bytes at I. -/
  | draw (x y n : Nibble) (h : 4096 < m.index.toNat + n) :
      WordFault m (Instruction.registerWord 0xD x y n) (.memoryOutOfBounds m.index)

/-- The faults of a step of a machine that is not paused. -/
inductive StepFault (m : Machine) : Fault → Prop where
  | firstByte (h : 4096 ≤ m.pc.toNat) : StepFault m (.memoryOutOfBounds m.pc)
  | secondByte (h : m.pc.toNat = 4095) : StepFault m (.memoryOutOfBounds 4096)
  | instruction {word : UInt16} {fault : Fault} (hw : m.WordAtPc word)
      (hf : WordFault m word fault) : StepFault m fault

theorem rangeFault_eq_some_iff {m : Machine} {length : Nat} {fault : Fault} :
    m.rangeFault length = some fault ↔
      4096 < m.index.toNat + length ∧ Fault.memoryOutOfBounds m.index = fault := by
  simp [rangeFault]

theorem wordFault_of_faultOf {m : Machine} {word : UInt16} {fault : Fault}
    (h : m.faultOf (.ofWord word) = some fault) : WordFault m word fault := by
  -- the word is that of its instruction, as no register comparison faults
  have hw := fun hd => Instruction.toWord_ofWord (w := word) hd
  cases hi : Instruction.ofWord word
  all_goals rw [hi] at h hw
  case ret =>
    obtain ⟨hd, rfl⟩ : m.stack.depth = 0 ∧ Fault.stackUnderflow = fault := by
      simpa [faultOf] using h
    rw [← hw rfl]
    exact .ret (List.eq_nil_of_length_eq_zero (by rw [CallStack.length_toList, hd]))
  case call target =>
    obtain ⟨hd, rfl⟩ : m.stack.depth = 16 ∧ Fault.stackOverflow = fault := by
      simpa [faultOf] using h
    rw [← hw rfl]
    exact .call target (by rw [CallStack.length_toList, hd])
  case glyph x =>
    obtain ⟨hd, rfl⟩ : 15 < m.regs[x].toNat ∧ Fault.invalidFontDigit m.regs[x] = fault := by
      simpa [faultOf] using h
    rw [← hw rfl]
    exact .glyph x hd
  case draw x y n =>
    obtain ⟨hr, rfl⟩ := rangeFault_eq_some_iff.mp h
    rw [← hw rfl]
    exact .draw x y n hr
  case decimal x =>
    obtain ⟨hr, rfl⟩ := rangeFault_eq_some_iff.mp h
    rw [← hw rfl]
    exact .decimal x (by omega)
  case store x =>
    obtain ⟨hr, rfl⟩ := rangeFault_eq_some_iff.mp h
    rw [← hw rfl]
    exact .store x (by omega)
  case load x =>
    obtain ⟨hr, rfl⟩ := rangeFault_eq_some_iff.mp h
    rw [← hw rfl]
    exact .load x (by omega)
  case unknown word' =>
    obtain ⟨rfl, hu⟩ := Instruction.unassigned_of_ofWord hi
    cases h
    exact .unassigned hu
  all_goals cases h

theorem faultOf_toWord (m : Machine) (i : Instruction) (h : i.Readable) :
    m.faultOf (.ofWord i.toWord) = m.faultOf i := by
  rw [Instruction.ofWord_toWord h]

theorem faultOf_of_wordFault {m : Machine} {word : UInt16} {fault : Fault}
    (h : WordFault m word fault) : m.faultOf (.ofWord word) = some fault := by
  cases h with
  | unassigned h => rw [Instruction.ofWord_of_unassigned h, faultOf]
  | call target h =>
    rw [CallStack.length_toList] at h
    exact (m.faultOf_toWord (.call target) trivial).trans (if_pos h)
  | ret h =>
    have hd : m.stack.depth = 0 := by rw [← CallStack.length_toList, h, List.length_nil]
    exact (m.faultOf_toWord .ret trivial).trans (if_pos hd)
  | glyph x h => exact (m.faultOf_toWord (.glyph x) trivial).trans (if_pos h)
  | decimal x h =>
    exact (m.faultOf_toWord (.decimal x) trivial).trans
      (rangeFault_eq_some_iff.mpr ⟨by omega, rfl⟩)
  | store x h =>
    exact (m.faultOf_toWord (.store x) trivial).trans
      (rangeFault_eq_some_iff.mpr ⟨by omega, rfl⟩)
  | load x h =>
    exact (m.faultOf_toWord (.load x) trivial).trans
      (rangeFault_eq_some_iff.mpr ⟨by omega, rfl⟩)
  | draw x y n h =>
    exact (m.faultOf_toWord (.draw x y n) trivial).trans
      (rangeFault_eq_some_iff.mpr ⟨h, rfl⟩)

theorem nextFault_iff {m : Machine} {fault : Fault} :
    m.nextFault = some fault ↔ StepFault m fault := by
  constructor
  · intro h
    unfold nextFault at h
    cases hf : m.fetch with
    | ok word =>
      rw [hf] at h
      exact .instruction (wordAtPc_of_fetch hf).1 (wordFault_of_faultOf h)
    | error f =>
      rw [hf] at h
      obtain rfl : f = fault := Option.some.inj h
      rcases Nat.lt_or_ge m.pc.toNat 4096 with hlt | hge
      · rcases Nat.eq_or_lt_of_le hlt with heq | hlt
        · have hpc := Nat.succ.inj heq
          rw [fetch_of_second_outside hpc] at hf
          cases hf
          exact .secondByte hpc
        · obtain ⟨word, hw⟩ := exists_wordAtPc hlt
          rw [fetch_of_wordAtPc hw] at hf
          cases hf
      · rw [fetch_of_first_outside hge] at hf
        cases hf
        exact .firstByte hge
  · intro h
    unfold nextFault
    cases h with
    | firstByte h => rw [fetch_of_first_outside h]
    | secondByte h => rw [fetch_of_second_outside h]
    | instruction hw hf =>
      rw [fetch_of_wordAtPc hw]
      exact faultOf_of_wordFault hf

/-- A step of a machine that is not paused faults exactly as `StepFault` tells, and is carried out
in all other cases. -/
theorem step_fault_iff (m : Machine) (hp : m.paused = false) :
    (∀ fault, m.step.1 = .error fault ↔ StepFault m fault) ∧
    ((∃ outcome, m.step.1 = .ok outcome) ↔ ∀ fault, ¬ StepFault m fault) := by
  rcases step_cases m with ⟨hq, _⟩ | ⟨_, f, hn, hs⟩ | ⟨_, word, hw, hf, hs⟩
  · rw [hp] at hq
    cases hq
  · have hf := nextFault_iff.mp hn
    rw [hs]
    refine ⟨fun fault => ⟨?_, ?_⟩, ⟨?_, ?_⟩⟩
    · rintro ⟨⟩
      exact hf
    · intro h
      have := hn.symm.trans (nextFault_iff.mpr h)
      cases this
      rfl
    · rintro ⟨_, ⟨⟩⟩
    · intro h
      exact absurd hf (h f)
  · have hnone : ∀ fault, ¬ StepFault m fault := by
      intro fault h
      have hn := nextFault_iff.mpr h
      simp only [nextFault, hw, hf] at hn
      cases hn
    rw [hs]
    refine ⟨fun fault => ⟨?_, ?_⟩, ⟨fun _ => hnone, fun _ => ⟨_, rfl⟩⟩⟩
    · rintro ⟨⟩
    · intro h
      exact absurd h (hnone fault)

/-- `F033` with I at the last byte but one does not find its three bytes. -/
theorem step_fault_iff_decimal :
    let m := { boot [0xF0, 0x33] minSpeed { key := .ofSeed 0 } with index := 0xFFE }
    m.paused = false ∧ m.step.1 = .error (.memoryOutOfBounds 0xFFE) := by
  refine ⟨rfl, ((step_fault_iff _ rfl).1 _).mpr (.instruction ⟨0xF0, 0x33, ?_, ?_, rfl⟩ ?_)⟩
  · exact Memory.getElem?_image_rom (i := 0) (by decide) (by decide)
  · exact Memory.getElem?_image_rom (i := 1) (by decide) (by decide)
  · exact .decimal 0 (by decide)

end Machine

end Chip8
