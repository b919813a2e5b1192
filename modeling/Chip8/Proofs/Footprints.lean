import Chip8.Proofs.Sprites
import Chip8.Proofs.Bounds

/-!
# Footprints

What an instruction may change besides memory and the program counter. `MayChange` is the table of
it, by the word of the instruction and by the part of the machine (`Part`); a register is a part of
its own. An instruction changes no part that the table does not name for it (`same_after`), and what
is no part is changed by no instruction at all.

`frame_law` says so about steps. It adds what I is set to, and that the instructions on I and on
blocks of registers, the sum with a byte and the bitwise operations leave no flag behind.
-/

namespace Chip8

open Instruction (addressWord byteWord registerWord)

/-- A part of a machine. -/
inductive Part where
  | display
  | index
  | delay
  | sound
  | stack
  /-- The press that is still to be taken. -/
  | pending
  | random
  | reg (k : Nibble)
deriving DecidableEq, Repr

/-- The part is the same in both machines. -/
def Part.Same (m n : Machine) : Part → Prop
  | .display => n.display = m.display
  | .index => n.index = m.index
  | .delay => n.delay = m.delay
  | .sound => n.sound = m.sound
  | .stack => n.stack = m.stack
  | .pending => n.keypad.pending = m.keypad.pending
  | .random => n.random = m.random
  | .reg k => n.regs[k] = m.regs[k]

/-! ## Registers -/

/-- Whether the operation leaves a carry, a borrow or a lost bit in VF. -/
def Arithmetic.setsFlag : Arithmetic → Bool
  | .copy | .or | .and | .xor => false
  | .add | .sub | .shiftRight | .subFrom | .shiftLeft => true

theorem Registers.getElem_apply_of_ne (v : Registers) {op : Arithmetic} {x y k : Nibble}
    (hx : k ≠ x) (hflag : op.setsFlag = true → k ≠ flag) : (v.apply op x y)[k] = v[k] := by
  cases op
  case copy | or | and | xor => exact getElem_set_of_ne v hx _
  case add => exact (getElem_set_of_ne _ (hflag rfl) _).trans (getElem_set_of_ne v hx _)
  all_goals exact (getElem_set_of_ne _ hx _).trans (getElem_set_of_ne v (hflag rfl) _)

namespace Machine

/-! ## What may change -/

/-- The instruction with the word may change the part. -/
inductive MayChange (m : Machine) : (word : UInt16) → Part → Prop where
  | clear : MayChange m 0x00E0 .display
  | draw (x y n : Nibble) : MayChange m (registerWord 0xD x y n) .display
  | setIndex (target : Address) : MayChange m (addressWord 0xA target) .index
  | addIndex (x : Nibble) : MayChange m (byteWord 0xF x 0x1E) .index
  | glyph (x : Nibble) : MayChange m (byteWord 0xF x 0x29) .index
  | setDelay (x : Nibble) : MayChange m (byteWord 0xF x 0x15) .delay
  | setSound (x : Nibble) : MayChange m (byteWord 0xF x 0x18) .sound
  | call (target : Address) : MayChange m (addressWord 0x2 target) .stack
  | ret : MayChange m 0x00EE .stack
  | take (x : Nibble) : MayChange m (byteWord 0xF x 0x0A) .pending
  | random (x : Nibble) (nn : UInt8) : MayChange m (byteWord 0xC x nn.toNat) .random
  | setByte (x : Nibble) (nn : UInt8) : MayChange m (byteWord 0x6 x nn.toNat) (.reg x)
  | addByte (x : Nibble) (nn : UInt8) : MayChange m (byteWord 0x7 x nn.toNat) (.reg x)
  | arithmetic (x y n : Nibble) : MayChange m (registerWord 0x8 x y n) (.reg x)
  | randomByte (x : Nibble) (nn : UInt8) : MayChange m (byteWord 0xC x nn.toNat) (.reg x)
  | readDelay (x : Nibble) : MayChange m (byteWord 0xF x 0x07) (.reg x)
  /-- A wait puts the key into Vx when it ends. -/
  | key (x : Nibble) (h : m.keypad.pending ≠ none) : MayChange m (byteWord 0xF x 0x0A) (.reg x)
  | load (x k : Nibble) (h : k ≤ x) : MayChange m (byteWord 0xF x 0x65) (.reg k)
  /-- The sum, the differences and the shifts set VF besides Vx. -/
  | arithmeticFlag (x y n : Nibble) (h : n.val ∈ [0x4, 0x5, 0x6, 0x7, 0xE]) :
      MayChange m (registerWord 0x8 x y n) (.reg flag)
  | drawFlag (x y n : Nibble) : MayChange m (registerWord 0xD x y n) (.reg flag)

section

variable {m : Machine}

theorem mayChange_arithmetic (op : Arithmetic) (x y : Nibble) :
    m.MayChange (registerWord 0x8 x y (Instruction.digitOf op)) (.reg x) ∧
    (op.setsFlag = true → m.MayChange (registerWord 0x8 x y (Instruction.digitOf op)) (.reg flag)) := by
  have hdigit : Instruction.digitOf op < 16 := by cases op <;> decide
  have hlast : op.setsFlag = true → Instruction.digitOf op ∈ [0x4, 0x5, 0x6, 0x7, 0xE] := by
    cases op <;> decide
  exact ⟨.arithmetic x y ⟨_, hdigit⟩, fun hflag => .arithmeticFlag x y ⟨_, hdigit⟩ (hlast hflag)⟩

/-- A load leaves the registers behind the last one as they are. -/
theorem regs_load_of_lt {x k : Nibble} (h : x < k) : (m.after (.load x)).regs[k] = m.regs[k] := by
  have hlength : (m.readIndex (x + 1)).length ≤ x.val + 1 := by
    simp only [readIndex, readRun, Vector.length_toList]
    omega
  have hbehind : 0 + (m.readIndex (x + 1)).length ≤ k.val := by
    have : x.val < k.val := h
    omega
  have hsame := getElem?_writeRun_of_outside m.regs 0 (m.readIndex (x + 1)) (.inr hbehind)
  rw [Registers.getElem?_val, Registers.getElem?_val] at hsame
  exact Option.some.inj hsame

theorem same_reg_after {i : Instruction} {n k : Nibble}
    (h : ¬ m.MayChange (i.toWordWith n) (.reg k)) : (m.after i).regs[k] = m.regs[k] := by
  have hset : ∀ (x : Nibble) (byte : UInt8), (x = k → m.MayChange (i.toWordWith n) (.reg k)) →
      (m.regs.set x byte)[k] = m.regs[k] :=
    fun x byte hx => m.regs.getElem_set_of_ne (fun hk => h (hx hk.symm)) byte
  cases i
  case setByte x nn => exact hset x _ fun hk => hk ▸ .setByte x nn
  case addByte x nn => exact hset x _ fun hk => hk ▸ .addByte x nn
  case random x nn => exact hset x _ fun hk => hk ▸ .randomByte x nn
  case readDelay x => exact hset x _ fun hk => hk ▸ .readDelay x
  case arithmetic op x y =>
    obtain ⟨hx, hflag⟩ := mayChange_arithmetic (m := m) op x y
    apply m.regs.getElem_apply_of_ne
    · rintro rfl
      exact h hx
    · rintro hsets rfl
      exact h (hflag hsets)
  case draw x y n =>
    have hne : k ≠ flag := by
      rintro rfl
      exact h (.drawFlag x y n)
    have hcanvas := (Sprite.Canvas.precedes_foldl (x := x) (y := y) m.flag_canvas_le_one
      (Sprite.squares (m.readIndex n))).other k hne
    exact hcanvas.trans (m.regs.getElem_set_of_ne hne 0)
  case waitKey x =>
    show (m.keypad.pending.elim m.regs fun key => m.regs.set x key.val.toUInt8)[k] = _
    cases hp : m.keypad.pending with
    | none => rfl
    | some key => exact hset x _ fun hk => hk ▸ .key x (by rw [hp]; exact Option.some_ne_none key)
  case load x =>
    have hlt : x < k := by
      by_contra hle
      exact h (.load x k (not_lt.mp hle))
    exact regs_load_of_lt hlt
  all_goals rfl

/-- An instruction changes no part that the table does not name. -/
theorem same_after {i : Instruction} {n : Nibble} {part : Part}
    (h : ¬ m.MayChange (i.toWordWith n) part) : part.Same m (m.after i) := by
  cases part
  case reg k => exact same_reg_after h
  case display =>
    cases i
    case clear => exact absurd .clear h
    case draw x y n => exact absurd (.draw x y n) h
    all_goals rfl
  case index =>
    cases i
    case setIndex target => exact absurd (.setIndex target) h
    case addIndex x => exact absurd (.addIndex x) h
    case glyph x => exact absurd (.glyph x) h
    all_goals rfl
  case delay =>
    cases i
    case setDelay x => exact absurd (.setDelay x) h
    all_goals rfl
  case sound =>
    cases i
    case setSound x => exact absurd (.setSound x) h
    all_goals rfl
  case stack =>
    cases i
    case call target => exact absurd (.call target) h
    case ret => exact absurd .ret h
    all_goals rfl
  case pending =>
    cases i
    case waitKey x => exact absurd (.take x) h
    all_goals rfl
  case random =>
    cases i
    case random x nn => exact absurd (.random x nn) h
    all_goals rfl

/-- The operations with the least digits are the bitwise ones. -/
theorem exists_bitwise {n : Nibble} (h : n.val ≤ 3) :
    ∃ op, Instruction.digitOf op = n.val ∧ op.setsFlag = false := by
  have hn : n.val = 0 ∨ n.val = 1 ∨ n.val = 2 ∨ n.val = 3 := by omega
  rcases hn with hn | hn | hn | hn
  · exact ⟨.copy, hn.symm, rfl⟩
  · exact ⟨.or, hn.symm, rfl⟩
  · exact ⟨.and, hn.symm, rfl⟩
  · exact ⟨.xor, hn.symm, rfl⟩

theorem toNat_glyph (byte : UInt8) :
    (Font.glyphAddress byte.toNat).toUInt16.toNat = 5 * byte.toNat := by
  have := byte.toNat_lt
  show (0 + byte.toNat * 5) % 65536 = _
  omega

/-- A block of registers is loaded from I on. -/
theorem regs_load {x : Nibble} (hfault : m.faultOf (.load x) = none) {k : Nibble} (hk : k ≤ x) :
    m.memory[m.index.toNat + k.val]? = some (m.after (.load x)).regs[k] := by
  have hx := x.isLt
  have hle : k.val ≤ x.val := hk
  have hrange : m.index.toNat + (x.val + 1) ≤ Memory.size := by
    by_contra hlt
    rw [faultOf, rangeFault, if_pos (Nat.lt_of_not_le hlt)] at hfault
    cases hfault
  have hlength : (m.readIndex (x + 1)).length = x.val + 1 := length_readRun hrange
  have hwritten := getElem?_writeRun m.regs 0 (m.readIndex (x + 1)) k.val
  rw [if_pos (by omega), Nat.sub_zero, Registers.getElem?_val, readIndex, getElem?_readRun,
    if_pos (by omega)] at hwritten
  exact hwritten.symm

end

/-! ## Steps -/

/-- What a step changes that is carried out: memory, the program counter and what the table names
for its word, and nothing else. I takes the address of `Annn`, the sum of `Fx1E` modulo 65536 or the
place of the glyph of `Fx29`. There is no flag of a sum with I or with a byte, of a bitwise
operation, or of a block of registers that is stored or loaded, and those blocks leave I alone. -/
theorem frame_law (m : Machine) (outcome : Outcome) (hp : m.paused = false)
    (hs : m.step.1 = .ok outcome) :
    let next := m.step.2
    ∃ word, m.WordAtPc word ∧
      (∀ part, ¬ m.MayChange word part → part.Same m next) ∧
      (next.keypad.held = m.keypad.held ∧ next.paused = m.paused ∧ next.speed = m.speed ∧
        next.sinceTick = m.sinceTick) ∧
      (∀ target : Address, word = addressWord 0xA target → next.index.toNat = target.val) ∧
      (∀ x : Nibble, word = byteWord 0xF x 0x1E →
        next.index.toNat = (m.index.toNat + m.regs[x].toNat) % 65536) ∧
      (∀ x : Nibble, word = byteWord 0xF x 0x29 → next.index.toNat = 5 * m.regs[x].toNat) ∧
      (∀ x : Nibble, ∀ kk ∈ [0x33, 0x55, 0x65], word = byteWord 0xF x kk → next.index = m.index) ∧
      (∀ x : Nibble, ∀ kk ∈ [0x1E, 0x33, 0x55], word = byteWord 0xF x kk → next.regs = m.regs) ∧
      (∀ (x : Nibble) (nn : UInt8), word = byteWord 0x7 x nn.toNat →
        next.regs = m.regs.set x (m.regs[x] + nn)) ∧
      (∀ x k : Nibble, word = byteWord 0xF x 0x65 → k ≤ x →
        m.memory[m.index.toNat + k.val]? = some next.regs[k]) ∧
      (∀ x y n : Nibble, word = registerWord 0x8 x y n → n.val ≤ 3 → x ≠ flag →
        next.regs[flag] = m.regs[flag]) := by
  intro next
  obtain ⟨word, hw, hfault, _, hstep⟩ := exists_of_step_ok hp hs
  have hnext : next = m.after (.ofWord word) := hstep
  have hread : ∀ i : Instruction, i.Readable → word = i.toWord →
      m.faultOf i = none ∧ next = m.after i := by
    rintro i hi rfl
    rw [Instruction.ofWord_toWord hi] at hfault hnext
    exact ⟨hfault, hnext⟩
  refine ⟨word, (wordAtPc_of_fetch hw).1, ?_, ?_, ?_, ?_, ?_, ?_, ?_, ?_, ?_, ?_⟩
  · intro part hpart
    rw [hnext]
    apply same_after (n := Instruction.nOf word)
    rwa [Instruction.toWordWith_ofWord]
  · rw [hnext]
    refine ⟨?_, rfl, rfl, rfl⟩
    cases Instruction.ofWord word <;> rfl
  · intro target hword
    rw [(hread (.setIndex target) trivial hword).2]
    exact toNat_target target
  · intro x hword
    rw [(hread (.addIndex x) trivial hword).2]
    exact UInt16.toNat_add _ _
  · intro x hword
    rw [(hread (.glyph x) trivial hword).2]
    exact toNat_glyph _
  · intro x kk hkk hword
    simp only [List.mem_cons, List.not_mem_nil, or_false] at hkk
    rcases hkk with rfl | rfl | rfl
    · rw [(hread (.decimal x) trivial hword).2]
      rfl
    · rw [(hread (.store x) trivial hword).2]
      rfl
    · rw [(hread (.load x) trivial hword).2]
      rfl
  · intro x kk hkk hword
    simp only [List.mem_cons, List.not_mem_nil, or_false] at hkk
    rcases hkk with rfl | rfl | rfl
    · rw [(hread (.addIndex x) trivial hword).2]
      rfl
    · rw [(hread (.decimal x) trivial hword).2]
      rfl
    · rw [(hread (.store x) trivial hword).2]
      rfl
  · intro x nn hword
    rw [(hread (.addByte x nn) trivial hword).2]
    rfl
  · intro x k hword hk
    obtain ⟨hnone, hafter⟩ := hread (.load x) trivial hword
    rw [hafter]
    exact regs_load hnone hk
  · intro x y n hword hn hx
    obtain ⟨op, hdigit, hsets⟩ := exists_bitwise hn
    rw [← hdigit] at hword
    rw [(hread (.arithmetic op x y) trivial hword).2]
    exact m.regs.getElem_apply_of_ne hx.symm (fun h => nomatch hsets.symm.trans h)

/-- `F31E` with a sum behind the last address: I wraps, and neither VF nor the display changes. -/
theorem frame_law_wrapped :
    let m := { boot [0xF3, 0x1E] minSpeed { key := .ofSeed 0 } with
      index := 0xFFFF, regs := Vector.replicate 16 2 }
    m.paused = false ∧ m.step.1 = .ok .ran ∧ m.step.2.index.toNat = 1 ∧ m.step.2.regs = m.regs ∧
      m.step.2.display = m.display := by
  intro m
  obtain ⟨hran, hfetch, hreg⟩ : m.step.1 = .ok .ran ∧ m.fetch = .ok 0xF31E ∧
      m.regs[(3 : Nibble)].toNat = 2 := by decide +kernel
  obtain ⟨word, hw, hparts, _, _, hsum, _, _, hregs, _⟩ := frame_law m .ran rfl hran
  have hword : word = byteWord 0xF 3 0x1E := by
    rw [fetch_of_wordAtPc hw] at hfetch
    exact Except.ok.inj hfetch
  have hdisplay : ¬ m.MayChange word .display := by
    intro h
    cases h with
    | clear => exact absurd hword (by decide)
    | draw x y n =>
      have hgroup := congrArg Instruction.groupOf hword
      rw [Instruction.groupOf_registerWord x y (by decide) n.isLt] at hgroup
      exact absurd hgroup (by decide)
  refine ⟨rfl, hran, ?_, hregs 3 0x1E (by decide) hword, hparts .display hdisplay⟩
  have hindex : m.index.toNat = 0xFFFF := rfl
  rw [hsum 3 hword, hreg, hindex]

end Machine

end Chip8
