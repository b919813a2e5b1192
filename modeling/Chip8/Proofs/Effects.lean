import Chip8.Machine.Execution

/-!
# What an instruction does

`Machine.perform` carries an instruction out; here it is taken apart. `Machine.faultOf` is the fault
that an instruction finds, and `Machine.after` is the machine after one that finds none, each part
of it told by a function of its own (`memoryAfter`, `pcAfter`, ...). Both look at the machine before
the program counter moved.

* `execute_of_fault`: an instruction with a fault moves the program counter and changes no more.
* `execute_eq_after`: an instruction without a fault leads to `after`.
* `step_cases`: what a step does is one of three things. The machine rests, or it is paused by
  `nextFault`, or it goes on to `after`.
-/

namespace Chip8

namespace CallStack

theorem push?_eq_none_iff {s : CallStack} {address : UInt16} :
    s.push? address = none ↔ s.depth = capacity := by
  have := s.depth_le
  simp only [push?, dite_eq_right_iff, reduceCtorEq, imp_false]
  omega

theorem pop?_eq_none_iff {s : CallStack} : s.pop? = none ↔ s.depth = 0 := by
  simp only [pop?, dite_eq_right_iff, reduceCtorEq, imp_false]
  omega

theorem exists_push? {s : CallStack} (h : s.depth ≠ capacity) (address : UInt16) :
    ∃ next, s.push? address = some next :=
  Option.ne_none_iff_exists'.mp fun hnone => h (push?_eq_none_iff.mp hnone)

theorem exists_pop? {s : CallStack} (h : s.depth ≠ 0) : ∃ popped, s.pop? = some popped :=
  Option.ne_none_iff_exists'.mp fun hnone => h (pop?_eq_none_iff.mp hnone)

end CallStack

theorem Keypad.take_of_pending_none {k : Keypad} (h : k.pending = none) : k.take = k := by
  obtain ⟨held, pending⟩ := k
  subst h
  rfl

namespace Machine

/-! ## Faults -/

/-- The fault of an access to `length` bytes from I on, if they do not all lie in memory. -/
def rangeFault (m : Machine) (length : Nat) : Option Fault :=
  if Memory.size < m.index.toNat + length then some (.memoryOutOfBounds m.index) else none

/-- The fault that an instruction finds, if it finds one. -/
def faultOf (m : Machine) : Instruction → Option Fault
  | .ret => if m.stack.depth = 0 then some .stackUnderflow else none
  | .call _ => if m.stack.depth = CallStack.capacity then some .stackOverflow else none
  | .draw _ _ n => m.rangeFault n
  | .glyph x => if 15 < m.regs[x].toNat then some (.invalidFontDigit m.regs[x]) else none
  | .decimal _ => m.rangeFault 3
  | .store x | .load x => m.rangeFault (x + 1)
  | .unknown word => some (.unknownInstruction word)
  | _ => none

/-! ## The machine after an instruction without a fault -/

def outcomeOf (m : Machine) : Instruction → Outcome
  | .waitKey _ => if m.keypad.pending = none then .waiting else .ran
  | _ => .ran

def memoryAfter (m : Machine) : Instruction → Memory
  | .decimal x => writeRun m.memory m.index.toNat (decimalDigits m.regs[x])
  | .store x => writeRun m.memory m.index.toNat (readRun m.regs 0 (x + 1))
  | _ => m.memory

/-- The display and the registers after the sprite of `n` rows at I was drawn. -/
def canvasAfter (m : Machine) (x y n : Nibble) : Sprite.Canvas :=
  Sprite.Canvas.draw x y (m.readIndex n) ⟨m.display, m.regs⟩

def displayAfter (m : Machine) : Instruction → Display
  | .clear => Display.blank
  | .draw x y n => (m.canvasAfter x y n).display
  | _ => m.display

/-- The address past an instruction, and past the next one too if `skip` holds. -/
def pcPast (m : Machine) (skip : Bool) : UInt16 := m.pc + if skip then 4 else 2

def pcAfter (m : Machine) : Instruction → UInt16
  | .ret => m.stack.pop?.elim m.pc Prod.fst
  | .sys target | .jump target | .call target => target.val.toUInt16
  | .jumpOffset target => target.val.toUInt16 + m.regs[(0 : Nibble)].toUInt16
  | .skipEqByte x nn => m.pcPast (m.regs[x] == nn)
  | .skipNeByte x nn => m.pcPast (m.regs[x] != nn)
  | .skipEqReg x y => m.pcPast (m.regs[x] == m.regs[y])
  | .skipNeReg x y => m.pcPast (m.regs[x] != m.regs[y])
  | .skipHeld x => m.pcPast (m.keypad.isHeld m.regs[x].toNat)
  | .skipNotHeld x => m.pcPast (!m.keypad.isHeld m.regs[x].toNat)
  | .waitKey _ => if m.keypad.pending = none then m.pc else m.pcPast false
  | _ => m.pcPast false

def indexAfter (m : Machine) : Instruction → UInt16
  | .setIndex target => target.val.toUInt16
  | .addIndex x => m.index + m.regs[x].toUInt16
  | .glyph x => (Font.glyphAddress m.regs[x].toNat).toUInt16
  | _ => m.index

def regsAfter (m : Machine) : Instruction → Registers
  | .setByte x nn => m.regs.set x nn
  | .addByte x nn => m.regs.set x (m.regs[x] + nn)
  | .arithmetic op x y => m.regs.apply op x y
  | .random x nn => m.regs.set x (m.random.peek &&& nn)
  | .draw x y n => (m.canvasAfter x y n).regs
  | .waitKey x => m.keypad.pending.elim m.regs fun key => m.regs.set x key.val.toUInt8
  | .readDelay x => m.regs.set x m.delay
  | .load x => writeRun m.regs 0 (m.readIndex (x + 1))
  | _ => m.regs

def stackAfter (m : Machine) : Instruction → CallStack
  | .ret => m.stack.pop?.elim m.stack Prod.snd
  | .call _ => (m.stack.push? (m.pcPast false)).getD m.stack
  | _ => m.stack

def delayAfter (m : Machine) : Instruction → UInt8
  | .setDelay x => m.regs[x]
  | _ => m.delay

def soundAfter (m : Machine) : Instruction → UInt8
  | .setSound x => m.regs[x]
  | _ => m.sound

def keypadAfter (m : Machine) : Instruction → Keypad
  | .waitKey _ => m.keypad.take
  | _ => m.keypad

def randomAfter (m : Machine) : Instruction → Random.Stream
  | .random _ _ => m.random.advance
  | _ => m.random

/-- The machine after an instruction without a fault. What no line names is left alone. -/
def after (m : Machine) (i : Instruction) : Machine :=
  { m with
    memory := m.memoryAfter i
    display := m.displayAfter i
    pc := m.pcAfter i
    index := m.indexAfter i
    regs := m.regsAfter i
    stack := m.stackAfter i
    delay := m.delayAfter i
    sound := m.soundAfter i
    keypad := m.keypadAfter i
    random := m.randomAfter i }

/-! ## Carrying instructions out -/

theorem within_of_fault {m : Machine} {length : Nat} {next : Answer × Machine} {fault : Fault}
    (h : m.rangeFault length = some fault) : m.within length next = m.faulted fault := by
  unfold rangeFault at h
  split at h
  · next hlt =>
    cases h
    exact if_neg (Nat.not_le.mpr hlt)
  · cases h

theorem within_of_no_fault {m : Machine} {length : Nat} {next : Answer × Machine}
    (h : m.rangeFault length = none) : m.within length next = next := by
  unfold rangeFault at h
  split at h
  · cases h
  · next hle => exact if_pos (Nat.not_lt.mp hle)

/-- An instruction with a fault leaves the machine as it was once the program counter had moved. -/
theorem execute_of_fault {m : Machine} {i : Instruction} {fault : Fault}
    (h : m.faultOf i = some fault) : m.execute i = (.error fault, m.advance) := by
  show m.advance.perform i = m.advance.faulted fault
  cases i
  case call =>
    obtain ⟨hd, rfl⟩ : m.stack.depth = CallStack.capacity ∧ Fault.stackOverflow = fault := by
      simpa [faultOf] using h
    have hnone : m.advance.stack.push? m.advance.pc = none := CallStack.push?_eq_none_iff.mpr hd
    simp only [perform, hnone]
  case ret =>
    obtain ⟨hd, rfl⟩ : m.stack.depth = 0 ∧ Fault.stackUnderflow = fault := by
      simpa [faultOf] using h
    have hnone : m.advance.stack.pop? = none := CallStack.pop?_eq_none_iff.mpr hd
    simp only [perform, hnone]
  case glyph x =>
    obtain ⟨hd, rfl⟩ : 15 < m.regs[x].toNat ∧ Fault.invalidFontDigit m.regs[x] = fault := by
      simpa [faultOf] using h
    exact if_neg (Nat.not_le.mpr hd)
  case draw | decimal | store | load => exact within_of_fault h
  case unknown => cases h; rfl
  all_goals cases h

theorem pcPast_true (m : Machine) : m.pcPast true = m.pc + 2 + 2 := by
  rw [UInt16.add_assoc]
  rfl

theorem skipIf_advance (m : Machine) (c : Bool) :
    m.advance.skipIf c = { m with pc := m.pcPast c } := by
  cases c
  · rfl
  · rw [pcPast_true]
    rfl

theorem execute_eq_after {m : Machine} {i : Instruction} (h : m.faultOf i = none) :
    m.execute i = (.ok (m.outcomeOf i), m.after i) := by
  show m.advance.perform i = _
  cases i
  case call target =>
    have hfree : m.stack.depth ≠ CallStack.capacity := by simpa [faultOf] using h
    obtain ⟨s, hs⟩ := CallStack.exists_push? hfree (m.pcPast false)
    have hpush : m.advance.stack.push? m.advance.pc = some s := hs
    simp only [perform, hpush, after, stackAfter, hs]
    rfl
  case ret =>
    have hsome : m.stack.depth ≠ 0 := by simpa [faultOf] using h
    obtain ⟨⟨address, s⟩, hs⟩ := CallStack.exists_pop? hsome
    have hpop : m.advance.stack.pop? = some (address, s) := hs
    simp only [perform, hpop, after, stackAfter, pcAfter, hs]
    rfl
  case skipEqByte | skipNeByte | skipEqReg | skipNeReg | skipHeld | skipNotHeld =>
    simp only [perform, skipIf_advance]
    rfl
  case waitKey x =>
    cases hk : m.keypad.pending with
    | none =>
      have hpending : m.advance.keypad.pending = none := hk
      have hback : m.advance.pc - 2 = m.pc := UInt16.add_sub_cancel m.pc 2
      simp only [perform, hpending, hback, after, outcomeOf, pcAfter, regsAfter, keypadAfter, hk,
        if_true, Keypad.take_of_pending_none hk]
      rfl
    | some key =>
      have hpending : m.advance.keypad.pending = some key := hk
      simp only [perform, hpending, after, outcomeOf, pcAfter, regsAfter, keypadAfter, hk,
        reduceCtorEq, if_false]
      rfl
  case glyph x =>
    have hd : m.regs[x].toNat ≤ 15 := by simpa [faultOf] using h
    exact if_pos hd
  case draw | decimal | store | load => exact within_of_no_fault h
  case unknown => cases h
  all_goals rfl

/-! ## Fetching -/

/-- `word` is the word of the two bytes at the program counter, high byte first. -/
def WordAtPc (m : Machine) (word : UInt16) : Prop :=
  ∃ high low, m.memory[m.pc.toNat]? = some high ∧ m.memory[m.pc.toNat + 1]? = some low ∧
    word = wordOf high low

theorem fetch_of_first_outside {m : Machine} (h : 4096 ≤ m.pc.toNat) :
    m.fetch = .error (.memoryOutOfBounds m.pc) := by
  have hnone : m.memory[m.pc.toNat]? = none := Vector.getElem?_eq_none h
  simp only [fetch, byteAt, hnone]
  rfl

theorem fetch_of_second_outside {m : Machine} (h : m.pc.toNat = 4095) :
    m.fetch = .error (.memoryOutOfBounds 4096) := by
  have hpc : m.pc = 4095 := UInt16.toNat_inj.mp h
  obtain ⟨high, hhigh⟩ : ∃ high, m.memory[(4095 : UInt16).toNat]? = some high :=
    ⟨m.memory[4095], Vector.getElem?_eq_getElem (by decide)⟩
  have hnone : m.memory[((4095 : UInt16) + 1).toNat]? = none :=
    Vector.getElem?_eq_none (by decide)
  simp only [fetch, byteAt, hpc, hhigh, hnone]
  rfl

theorem fetch_of_wordAtPc {m : Machine} {word : UInt16} (h : m.WordAtPc word) :
    m.fetch = .ok word := by
  obtain ⟨high, low, hhigh, hlow, rfl⟩ := h
  have hlt : m.pc.toNat + 1 < 4096 := (Vector.getElem?_eq_some_iff.mp hlow).1
  have hnext : (m.pc + 1).toNat = m.pc.toNat + 1 := by
    rw [UInt16.toNat_add]
    exact Nat.mod_eq_of_lt (Nat.lt_trans hlt (by decide))
  simp only [fetch, byteAt, hnext, hhigh, hlow]
  rfl

theorem exists_wordAtPc {m : Machine} (h : m.pc.toNat + 1 < 4096) : ∃ word, m.WordAtPc word :=
  ⟨_, _, _, Vector.getElem?_eq_getElem (Nat.lt_of_succ_lt h), Vector.getElem?_eq_getElem h, rfl⟩

/-- The first two bytes of a program are its first word. -/
theorem wordAtPc_of_image {m : Machine} {word : UInt16} (high low : UInt8) (later : List UInt8)
    (hmemory : m.memory = Memory.image (high :: low :: later))
    (hpc : m.pc.toNat = Memory.romStart) (hword : word = wordOf high low) : m.WordAtPc word := by
  have hlength : 2 ≤ (high :: low :: later).length := Nat.le_add_left 2 later.length
  rw [WordAtPc, hmemory, hpc]
  refine ⟨high, low, ?_, ?_, hword⟩
  · exact Memory.getElem?_image_rom (i := 0) (Nat.lt_of_lt_of_le (by decide) hlength) (by decide)
  · exact Memory.getElem?_image_rom (i := 1) hlength (by decide)

theorem wordAtPc_of_fetch {m : Machine} {word : UInt16} (h : m.fetch = .ok word) :
    m.WordAtPc word ∧ m.pc.toNat + 1 < 4096 := by
  rcases Nat.lt_or_ge m.pc.toNat 4096 with hlt | hge
  · rcases Nat.eq_or_lt_of_le hlt with heq | hlt
    · rw [fetch_of_second_outside (Nat.succ.inj heq)] at h
      cases h
    · obtain ⟨word', hw⟩ := exists_wordAtPc hlt
      rw [fetch_of_wordAtPc hw] at h
      cases h
      exact ⟨hw, hlt⟩
  · rw [fetch_of_first_outside hge] at h
    cases h

/-! ## Steps -/

/-- The fault that the next step finds, if it finds one. -/
def nextFault (m : Machine) : Option Fault :=
  match m.fetch with
  | .ok word => m.faultOf (.ofWord word)
  | .error fault => some fault

theorem step_of_paused {m : Machine} (hp : m.paused = true) : m.step = (.ok .paused, m) :=
  if_pos hp

/-- A fault takes nothing but the pause with it. -/
theorem step_of_fault {m : Machine} {fault : Fault} (hp : m.paused = false)
    (h : m.nextFault = some fault) : m.step = (.error fault, { m with paused := true }) := by
  unfold nextFault at h
  unfold step attempt
  rw [hp, if_neg Bool.false_ne_true]
  cases hf : m.fetch with
  | error f =>
    rw [hf] at h
    cases h
    rfl
  | ok word =>
    rw [hf] at h
    simp only [execute_of_fault h]
    rfl

theorem step_eq_after {m : Machine} {word : UInt16} (hp : m.paused = false)
    (hw : m.fetch = .ok word) (h : m.faultOf (.ofWord word) = none) :
    m.step = (.ok (m.outcomeOf (.ofWord word)), m.after (.ofWord word)) := by
  unfold step attempt
  rw [hp, if_neg Bool.false_ne_true, hw]
  simp only [execute_eq_after h]

theorem step_cases (m : Machine) :
    (m.paused = true ∧ m.step = (.ok .paused, m)) ∨
    (m.paused = false ∧ ∃ fault, m.nextFault = some fault ∧
      m.step = (.error fault, { m with paused := true })) ∨
    (m.paused = false ∧ ∃ word, m.fetch = .ok word ∧ m.faultOf (.ofWord word) = none ∧
      m.step = (.ok (m.outcomeOf (.ofWord word)), m.after (.ofWord word))) := by
  cases hp : m.paused with
  | true => exact .inl ⟨rfl, step_of_paused hp⟩
  | false =>
    right
    cases hn : m.nextFault with
    | some fault => exact .inl ⟨rfl, fault, rfl, step_of_fault hp hn⟩
    | none =>
      right
      cases hw : m.fetch with
      | error fault => simp [nextFault, hw] at hn
      | ok word =>
        have h : m.faultOf (.ofWord word) = none := by simpa [nextFault, hw] using hn
        exact ⟨rfl, word, rfl, h, step_eq_after hp hw h⟩

/-- A step with an outcome, of a machine that is not paused, carries out the instruction at the
program counter. -/
theorem exists_of_step_ok {m : Machine} {outcome : Outcome} (hp : m.paused = false)
    (hs : m.step.1 = .ok outcome) :
    ∃ word, m.fetch = .ok word ∧ m.faultOf (.ofWord word) = none ∧
      m.outcomeOf (.ofWord word) = outcome ∧ m.step.2 = m.after (.ofWord word) := by
  rcases step_cases m with ⟨hq, _⟩ | ⟨_, fault, _, hstep⟩ | ⟨_, word, hw, hfault, hstep⟩
  · rw [hp] at hq
    cases hq
  · rw [hstep] at hs
    cases hs
  · rw [hstep] at hs ⊢
    exact ⟨word, hw, hfault, Except.ok.inj hs, rfl⟩

/-! ## Timers -/

theorem toNat_countdown (timer : UInt8) : (countdown timer).toNat = timer.toNat - 1 := by
  unfold countdown
  split
  · next h => subst h; rfl
  · next h =>
    have hne : timer.toNat ≠ 0 := fun h0 => h (UInt8.toNat_inj.mp h0)
    exact UInt8.toNat_sub_of_le timer 1 (UInt8.le_iff_toNat_le.mpr (Nat.pos_of_ne_zero hne))

theorem countdown_le (timer : UInt8) : countdown timer ≤ timer := by
  rw [UInt8.le_iff_toNat_le, toNat_countdown]
  exact Nat.sub_le _ _

end Machine

end Chip8
