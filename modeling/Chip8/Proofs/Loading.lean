import Chip8.Proofs.TwoRuns

/-!
# Loading a program

A program that fits is loaded into a machine of which nothing is left but its speed and its random
stream (`Machine.Fresh`). So what was done to two machines before cannot be told once both have
loaded a program, if they had the same speed and the same random stream (`load_law`).
-/

namespace Chip8

theorem Memory.getElem?_image (rom : List UInt8) {k : Nat} (hk : k < size) :
    (image rom)[k]? =
      if romStart ≤ k ∧ k < romStart + rom.length then rom[k - romStart]?
      else if k < Font.glyphs.length then Font.glyphs[k]? else some 0 := by
  have hzero : (Vector.replicate size (0 : UInt8))[k]? = some 0 := by
    rw [Vector.getElem?_replicate, if_pos hk]
  rw [image, getElem?_writeRun, getElem?_writeRun, hzero, Font.start]
  by_cases hrom : romStart ≤ k ∧ k < romStart + rom.length
  · rw [if_pos hrom, if_pos ⟨hrom.1, hrom.2, hk⟩]
  · rw [if_neg hrom, if_neg fun h => hrom ⟨h.1, h.2.1⟩]
    by_cases hfont : k < Font.glyphs.length
    · rw [if_pos hfont, if_pos ⟨Nat.zero_le k, by omega, hk⟩, Nat.sub_zero]
    · rw [if_neg hfont, if_neg (by omega)]

namespace Machine

/-- A machine at the first instruction of the program `rom`, of which nothing was run. -/
structure Fresh (rom : List UInt8) (m : Machine) : Prop where
  font : ∀ k < 80, m.memory[k]? = Font.glyphs[k]?
  gap : ∀ k, 80 ≤ k → k < 0x200 → m.memory[k]? = some 0
  program : ∀ i < rom.length, m.memory[0x200 + i]? = rom[i]?
  rest : ∀ k, 0x200 + rom.length ≤ k → k < 4096 → m.memory[k]? = some 0
  pc : m.pc = 0x200
  index : m.index = 0
  regs : ∀ x : Nibble, m.regs[x] = 0
  stack : m.stack.toList = []
  slots : ∀ i : Fin 16, m.stack.slots[i] = 0
  delay : m.delay = 0
  sound : m.sound = 0
  display : ∀ row col, m.display.get row col = false
  held : ∀ key, m.keypad.isHeld key = false
  pending : m.keypad.pending = none
  paused : m.paused = false
  sinceTick : m.sinceTick = 0

theorem fresh_boot {rom : List UInt8} (hfit : rom.length ≤ 3584) (speed : Nat)
    (random : Random.Stream) : Fresh rom (boot rom speed random) := by
  have hglyphs : Font.glyphs.length = 80 := rfl
  have hstart : Memory.romStart = 0x200 := rfl
  have himage : ∀ {k}, k < 4096 → (boot rom speed random).memory[k]? = _ :=
    fun hk => Memory.getElem?_image rom hk
  constructor
  case font =>
    intro k hk
    rw [himage (by omega), if_neg (by omega), hglyphs, if_pos hk]
  case gap =>
    intro k hle hlt
    rw [himage (by omega), if_neg (by omega), if_neg (by omega)]
  case program =>
    intro i hi
    rw [himage (by omega), if_pos (by omega), hstart, Nat.add_sub_cancel_left]
  case rest =>
    intro k hle hlt
    rw [himage hlt, if_neg (by omega), if_neg (by omega)]
  case regs => exact fun x => Vector.getElem_replicate x.isLt
  case slots => exact fun i => Vector.getElem_replicate i.isLt
  case display => exact Display.get_blank
  case held => exact Keypad.isHeld_idle
  all_goals rfl

end Machine

/-- Equal machines are alike. -/
theorem likeness_eq : Likeness Eq := by
  constructor
  case toKept =>
    constructor
    all_goals
      rintro m _ rfl
      intros
      rfl
  case speed =>
    rintro m _ rfl
    rfl
  case step =>
    rintro m _ rfl
    exact ⟨rfl, rfl⟩

namespace Pacer

theorem machine_load {p : Pacer} {rom : List UInt8} (hfit : rom.length ≤ 3584) :
    (p.perform (.load rom)).2 =
      { p with machine := Machine.boot rom p.machine.speed p.machine.random } := by
  rw [perform_load]
  exact congrArg Prod.snd (if_pos hfit)

/-- A program is loaded if it has at most 3584 bytes, and is refused otherwise. A machine that
loaded a program is fresh but for its speed and its random stream. So two machines with one speed
and one random stream are equal from then on, and no call tells them apart. -/
theorem load_law (p : Pacer) (rom : List UInt8) :
    (p.perform (.load rom)).1 =
      (if rom.length ≤ 3584 then .ok none else .error (.romTooLarge rom.length 3584)) ∧
    (rom.length ≤ 3584 →
      let m := (p.perform (.load rom)).2.machine
      m.Fresh rom ∧ m.speed = p.machine.speed ∧ m.random = p.machine.random) ∧
    (∀ q : Pacer, rom.length ≤ 3584 → q.machine.speed = p.machine.speed →
      q.machine.random = p.machine.random →
        let p' := (p.perform (.load rom)).2
        let q' := (q.perform (.load rom)).2
        q'.machine = p'.machine ∧
          (q.owed = p.owed → ∀ calls, q'.exchanges calls = p'.exchanges calls ∧
            (q'.performAll calls).machine = (p'.performAll calls).machine)) := by
  refine ⟨?_, fun hfit => ?_, fun q hfit hspeed hrandom => ?_⟩
  · rw [perform_load]
    split
    · next hfit => exact (if_pos hfit).symm
    · next hlarge => exact (if_neg hlarge).symm
  · rw [machine_load hfit]
    exact ⟨Machine.fresh_boot hfit _ _, rfl, rfl⟩
  · rw [machine_load hfit, machine_load hfit, hspeed, hrandom]
    refine ⟨rfl, fun howed calls => ?_⟩
    have halike : Alike Eq { p with machine := Machine.boot rom p.machine.speed p.machine.random }
        { q with machine := Machine.boot rom p.machine.speed p.machine.random } := ⟨rfl, howed⟩
    obtain ⟨hexchanges, hall⟩ := likeness_eq.performAll halike calls
    exact ⟨hexchanges, hall.machine.symm⟩

/-- One machine stopped at a fault with a call open, a frame counted and a press pending, the other
is at its start. -/
theorem load_law_reused :
    let used := (ofSeed 0).performAll
      [.setSpeed 3, .load [0x22, 0x04, 0x00, 0x00, 0xFF, 0xFF], .press 5, .cycle, .cycle]
    let new := (ofSeed 0).performAll [.setSpeed 3]
    used.machine ≠ new.machine ∧
      (used.perform (.load [0x00, 0xE0])).2.machine = (new.perform (.load [0x00, 0xE0])).2.machine ∧
      (used.perform (.load [0x00, 0xE0])).2.machine.Fresh [0x00, 0xE0] := by
  intro used new
  have hne : used.machine ≠ new.machine := by
    intro h
    exact absurd (congrArg Machine.paused h) (by decide +kernel)
  exact ⟨hne,
    ((load_law new [0x00, 0xE0]).2.2 used (by decide) (by decide +kernel) (by decide +kernel)).1,
    ((load_law used [0x00, 0xE0]).2.1 (by decide)).1⟩

end Pacer

end Chip8
