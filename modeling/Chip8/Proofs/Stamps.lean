import Mathlib.Data.Nat.Bits
import Chip8.Proofs.Overlays

/-!
# Many sprites

A sprite at a place that VF does not give is a stamp: its bytes and its place say all that matters
for the display (`Machine.Draws`). A list of stamps flips a cell once for each stamp that inks it,
so only the parity of their number counts (`drawn_iff`). A parity knows no order, and it is even
once everything has been drawn twice; `stamps_law` says so.
-/

namespace Chip8

open Display (Cell)
open Sprite (Square)

/-- The bytes of a sprite and the place of its upper left corner. -/
structure Stamp where
  bytes : List UInt8
  left : UInt8
  top : UInt8
  /-- An instruction has one digit for the number of rows. -/
  length_lt : bytes.length < 16

namespace Stamp

/-- `s` is a square of the stamp. -/
def Shows (p : Stamp) (s : Square) : Prop :=
  ∃ byte, p.bytes[s.row]? = some byte ∧ s.Reads byte

def place (p : Stamp) : Square → Cell := Square.cellAt p.left.toNat p.top.toNat

/-- A set square of the stamp lies on the cell. -/
def Inks (p : Stamp) (cell : Cell) : Prop := ∃ s, p.Shows s ∧ s.lit = true ∧ p.place s = cell

theorem inks_iff {p : Stamp} {cell : Cell} :
    (∃ s ∈ Sprite.squares p.bytes, s.lit = true ∧ p.place s = cell) ↔ p.Inks cell := by
  refine exists_congr fun s => ?_
  rw [Sprite.mem_squares_iff]
  rfl

/-- A program of one instruction and the bytes that it draws. -/
def rom (p : Stamp) : List UInt8 := 0xD0 :: UInt8.ofNat (0x10 + p.bytes.length) :: p.bytes

instance (p : Stamp) (cell : Cell) : Decidable (p.Inks cell) := decidable_of_iff _ inks_iff

end Stamp

/-- The number of stamps that ink the cell. -/
def inkings (stamps : List Stamp) (cell : Cell) : Nat := stamps.countP fun p => p.Inks cell

theorem Display.Overlaid.isLit {d e : Display} {p : Stamp} (h : d.Overlaid p.Shows p.place e)
    (cell : Cell) : e.isLit cell = (d.isLit cell ^^ decide (p.Inks cell)) := by
  by_cases hcovered : ∃ s, p.Shows s ∧ p.place s = cell
  · obtain ⟨s, hs, rfl⟩ := hcovered
    have hset : decide (p.Inks (p.place s)) = s.lit := by
      rw [Bool.eq_iff_iff, decide_eq_true_iff]
      refine ⟨?_, fun hset => ⟨s, hs, hset, rfl⟩⟩
      rintro ⟨t, ht, hset, heq⟩
      exact h.injective t s ht hs heq ▸ hset
    rw [h.covered s hs, hset]
  · have hbare : ¬ p.Inks cell := fun ⟨s, hs, _, heq⟩ => hcovered ⟨s, hs, heq⟩
    rw [h.uncovered cell fun s hs heq => hcovered ⟨s, hs, heq⟩, decide_eq_false hbare,
      Bool.xor_false]

namespace Machine

/-- The next step of the machine draws the stamp by `Dxyn`: the bytes are at I, the place is in Vx
and Vy, and VF is neither of these. -/
structure DrawsBy (m : Machine) (x y n : Nibble) (p : Stamp) : Prop where
  running : m.paused = false
  word : m.WordAtPc (Instruction.registerWord 0xD x y n)
  ran : m.step.1 = .ok .ran
  left_ne : x ≠ flag
  top_ne : y ≠ flag
  length : p.bytes.length = n.val
  bytes : ∀ k < n.val, m.memory[m.index.toNat + k]? = p.bytes[k]?
  left : m.regs[x] = p.left
  top : m.regs[y] = p.top

/-- The next step of the machine draws the stamp. -/
def Draws (m : Machine) (p : Stamp) : Prop := ∃ x y n, m.DrawsBy x y n p

section

variable {m : Machine} {x y n : Nibble} {p : Stamp}

/-- A drawing that is carried out lies in memory. -/
theorem DrawsBy.inBounds (h : m.DrawsBy x y n p) : m.index.toNat + n.val ≤ Memory.size := by
  obtain ⟨word, hw, hfault, _⟩ := exists_of_step_ok h.running h.ran
  rw [fetch_of_wordAtPc h.word] at hw
  cases hw
  rw [ofWord_draw] at hfault
  by_contra hlt
  rw [faultOf, rangeFault, if_pos (Nat.lt_of_not_le hlt)] at hfault
  cases hfault

theorem DrawsBy.shows_iff (h : m.DrawsBy x y n p) (s : Square) : p.Shows s ↔ m.Shows n s := by
  constructor
  · rintro ⟨byte, hbyte, hreads⟩
    have hrow : s.row < n.val := h.length ▸ (List.getElem?_eq_some_iff.mp hbyte).1
    exact ⟨hrow, byte, (h.bytes s.row hrow).trans hbyte, hreads⟩
  · rintro ⟨hrow, byte, hbyte, hreads⟩
    exact ⟨byte, (h.bytes s.row hrow).symm.trans hbyte, hreads⟩

/-- What a step leaves that draws a stamp. -/
theorem Draws.overlaid (h : m.Draws p) :
    m.display.Overlaid p.Shows p.place m.step.2.display ∧
      (m.step.2.regs[flag] = 1 ↔ ∃ cell, p.Inks cell ∧ m.display.isLit cell = true) := by
  obtain ⟨x, y, n, h⟩ := h
  have hstep := step_draw h.inBounds h.running h.word
  rw [execute_draw h.inBounds] at hstep
  obtain ⟨hdisplay, hflag, _⟩ := draw_of_still h.left_ne h.top_ne h.inBounds
  rw [h.left, h.top] at hdisplay hflag
  rw [hstep]
  refine ⟨hdisplay.congr h.shows_iff fun _ _ => rfl, hflag.trans ⟨?_, ?_⟩⟩
  · rintro ⟨s, hs, hset, hlit⟩
    exact ⟨_, ⟨s, (h.shows_iff s).mpr hs, hset, rfl⟩, hlit⟩
  · rintro ⟨cell, ⟨s, hs, hset, rfl⟩, hlit⟩
    exact ⟨s, (h.shows_iff s).mp hs, hset, hlit⟩

theorem Draws.isLit (h : m.Draws p) (cell : Cell) :
    m.step.2.display.isLit cell = (m.display.isLit cell ^^ decide (p.Inks cell)) :=
  h.overlaid.1.isLit cell

/-- The second of two drawings finds lit what the first one found dark. -/
theorem Draws.flag_again {m' : Machine} (h : m.Draws p) (h' : m'.Draws p)
    (hdisplay : m'.display = m.step.2.display) :
    m'.step.2.regs[flag] = 1 ↔ ∃ cell, p.Inks cell ∧ m.display.isLit cell = false := by
  rw [h'.overlaid.2, hdisplay]
  refine exists_congr fun cell => and_congr_right fun hinks => ?_
  rw [h.isLit, decide_eq_true hinks, Bool.xor_true, Bool.not_eq_true']

end

theorem registerWord_draw (n : Nibble) :
    Instruction.registerWord 0xD 0 1 n = wordOf 0xD0 (UInt8.ofNat (0x10 + n.val)) := by
  revert n
  decide

/-- A machine that is about to draw the stamp over `d`. -/
def drawer (p : Stamp) (d : Display) : Machine :=
  { boot p.rom minSpeed { key := .ofSeed 0 } with
    display := d
    index := 0x202
    regs := Registers.set (Registers.set (Vector.replicate 16 0) 0 p.left) 1 p.top }

theorem display_drawer (p : Stamp) (d : Display) : (drawer p d).display = d := rfl

theorem memory_drawer (p : Stamp) (d : Display) : (drawer p d).memory = Memory.image p.rom := by
  rw [drawer, boot]

theorem drawsBy_drawer (p : Stamp) (d : Display) {n : Nibble} (hn : p.bytes.length = n.val) :
    (drawer p d).DrawsBy 0 1 n p := by
  have hlt := n.isLt
  have hrom : p.rom.length = n.val + 2 := by
    rw [Stamp.rom, List.length_cons, List.length_cons, hn]
  have hbound : (drawer p d).index.toNat + n.val ≤ Memory.size := by
    show 0x202 + n.val ≤ 4096
    omega
  have hword : (drawer p d).WordAtPc (Instruction.registerWord 0xD 0 1 n) :=
    wordAtPc_of_image 0xD0 _ p.bytes (memory_drawer p d) rfl (by rw [hn, registerWord_draw])
  exact {
    running := rfl
    word := hword
    ran := by rw [step_draw hbound rfl hword, execute_draw hbound]
    left_ne := by decide
    top_ne := by decide
    length := hn
    bytes := by
      intro k hk
      have hbyte : (Memory.image p.rom)[Memory.romStart + (k + 2)]? = p.rom[k + 2]? :=
        Memory.getElem?_image_rom (by omega) (show 0x200 + (k + 2) < 4096 by omega)
      have hat : (drawer p d).index.toNat + k = Memory.romStart + (k + 2) := by
        show 0x202 + k = 0x200 + (k + 2)
        omega
      rw [memory_drawer, hat, hbyte]
      rfl
    left := by
      rw [drawer, Registers.getElem_set_of_ne _ (by decide), Registers.getElem_set_self]
    top := by
      rw [drawer, Registers.getElem_set_self] }

/-- Every stamp is drawn by some machine, whatever is on the display. -/
theorem exists_draws (d : Display) (p : Stamp) : ∃ m : Machine, m.display = d ∧ m.Draws p :=
  ⟨drawer p d, display_drawer p d, 0, 1, ⟨_, p.length_lt⟩, drawsBy_drawer p d rfl⟩

end Machine

/-- A program that draws the stamps, one after the other, turns `d` into `e`. Between two drawings
the machine may do anything that leaves the display alone. -/
inductive Drawn : Display → List Stamp → Display → Prop where
  | nil (d : Display) : Drawn d [] d
  | cons {m : Machine} {p : Stamp} {later : List Stamp} {e : Display} (hp : m.Draws p)
      (h : Drawn m.step.2.display later e) : Drawn m.display (p :: later) e

theorem isLit_of_drawn {d e : Display} {stamps : List Stamp} (h : Drawn d stamps e) (cell : Cell) :
    e.isLit cell = (d.isLit cell ^^ (inkings stamps cell).bodd) := by
  induction h with
  | nil d => rw [inkings, List.countP_nil, Nat.bodd_zero, Bool.xor_false]
  | @cons m p later e hp _ ih =>
    rw [ih, hp.isLit, inkings, inkings, List.countP_cons, Nat.bodd_add, Bool.xor_assoc]
    congr 1
    by_cases hink : p.Inks cell <;> simp [hink]

theorem exists_drawn (d : Display) (stamps : List Stamp) : ∃ e, Drawn d stamps e := by
  induction stamps generalizing d with
  | nil => exact ⟨d, .nil d⟩
  | cons p later ih =>
    obtain ⟨m, rfl, hp⟩ := Machine.exists_draws d p
    obtain ⟨e, he⟩ := ih m.step.2.display
    exact ⟨e, .cons hp he⟩

/-- Stamps flip the cells that an odd number of them ink. -/
theorem drawn_iff {d e : Display} {stamps : List Stamp} :
    Drawn d stamps e ↔
      ∀ cell, e.isLit cell = (d.isLit cell ^^ (inkings stamps cell).bodd) := by
  refine ⟨isLit_of_drawn, fun h => ?_⟩
  obtain ⟨e', he'⟩ := exists_drawn d stamps
  have heq : e = e' := Display.ext fun row col =>
    (h (row, col)).trans (isLit_of_drawn he' (row, col)).symm
  exact heq ▸ he'

theorem inkings_perm {stamps order : List Stamp} (h : order.Perm stamps) (cell : Cell) :
    inkings order cell = inkings stamps cell :=
  h.countP_eq _

theorem drawn_perm_iff {d e : Display} {stamps order : List Stamp} (h : order.Perm stamps) :
    Drawn d order e ↔ Drawn d stamps e := by
  simp only [drawn_iff, inkings_perm h]

/-- What one drawing of the stamps does, another one undoes. -/
theorem drawn_symm_iff {d e : Display} {stamps : List Stamp} :
    Drawn e stamps d ↔ Drawn d stamps e := by
  rw [drawn_iff, drawn_iff]
  refine forall_congr' fun cell => ?_
  cases d.isLit cell <;> cases e.isLit cell <;> cases (inkings stamps cell).bodd <;> decide

theorem drawn_unique {d e e' : Display} {stamps : List Stamp} (h : Drawn d stamps e)
    (h' : Drawn d stamps e') : e' = e :=
  Display.ext fun row col => (isLit_of_drawn h' (row, col)).trans (isLit_of_drawn h (row, col)).symm

/-- Stamps can be drawn in any order, and there is one display that all orders lead to. To draw them
once more, in any order again, leads back and nowhere else.

If one stamp is drawn twice, the first drawing sets VF if it inks a lit cell, and the second one if
it inks a cell that was dark at first. So one of them sets VF unless all squares are clear. -/
theorem stamps_law (d : Display) (stamps : List Stamp) :
    (∃ e, (∀ order : List Stamp, order.Perm stamps → ∀ e', Drawn d order e' ↔ e' = e) ∧
      ∀ order : List Stamp, order.Perm stamps → ∀ d', Drawn e order d' ↔ d' = d) ∧
    ∀ (p : Stamp) (first second : Machine), first.display = d → first.Draws p → second.Draws p →
      second.display = first.step.2.display →
      (first.step.2.regs[flag] = 1 ↔ ∃ cell, p.Inks cell ∧ d.isLit cell = true) ∧
      (second.step.2.regs[flag] = 1 ↔ ∃ cell, p.Inks cell ∧ d.isLit cell = false) ∧
      (first.step.2.regs[flag] = 1 ∨ second.step.2.regs[flag] = 1 ↔
        ∃ s, p.Shows s ∧ s.lit = true) := by
  constructor
  · obtain ⟨e, he⟩ := exists_drawn d stamps
    refine ⟨e, fun order horder e' => ?_, fun order horder d' => ?_⟩
    · rw [drawn_perm_iff horder]
      exact ⟨drawn_unique he, fun h => h ▸ he⟩
    · rw [drawn_perm_iff horder]
      have hd : Drawn e stamps d := drawn_symm_iff.mpr he
      exact ⟨drawn_unique hd, fun h => h ▸ hd⟩
  · rintro p first second rfl hfirst hsecond hdisplay
    have hsecond := hfirst.flag_again hsecond hdisplay
    refine ⟨hfirst.overlaid.2, hsecond, ?_⟩
    rw [hfirst.overlaid.2, hsecond]
    constructor
    · rintro (⟨_, ⟨s, hs, hset, _⟩, _⟩ | ⟨_, ⟨s, hs, hset, _⟩, _⟩) <;> exact ⟨s, hs, hset⟩
    · rintro ⟨s, hs, hset⟩
      have hinks : p.Inks (p.place s) := ⟨s, hs, hset, rfl⟩
      cases hlit : first.display.isLit (p.place s) with
      | true => exact .inl ⟨_, hinks, hlit⟩
      | false => exact .inr ⟨_, hinks, hlit⟩

/-- A glyph over the lower right corner and a bar that crosses it, drawn in both orders; and the
glyph drawn twice over a blank display. -/
theorem stamps_law_crossing :
    let glyph : Stamp := ⟨[0xF0, 0x90], 62, 31, by decide⟩
    let bar : Stamp := ⟨[0xFF], 0, 31, by decide⟩
    let m := Machine.drawer glyph Display.blank
    let m' := Machine.drawer glyph m.step.2.display
    (∃ e, Drawn Display.blank [glyph, bar] e ∧ Drawn Display.blank [bar, glyph] e ∧
      Drawn e [bar, glyph] Display.blank) ∧
    m.Draws glyph ∧ m'.Draws glyph ∧ m.step.2.regs[flag] ≠ 1 ∧ m'.step.2.regs[flag] = 1 := by
  intro glyph bar m m'
  obtain ⟨⟨e, horder, hback⟩, htwice⟩ := stamps_law Display.blank [glyph, bar]
  have hswap : [bar, glyph].Perm [glyph, bar] := .swap glyph bar []
  have hm : m.Draws glyph := ⟨0, 1, 2, Machine.drawsBy_drawer glyph _ rfl⟩
  have hm' : m'.Draws glyph := ⟨0, 1, 2, Machine.drawsBy_drawer glyph _ rfl⟩
  obtain ⟨hfirst, hsecond, _⟩ := htwice glyph m m' (Machine.display_drawer glyph _) hm hm'
    (Machine.display_drawer glyph _)
  have hink : glyph.Inks (31, 62) := by decide
  refine ⟨⟨e, (horder _ (.refl _) e).mpr rfl, (horder _ hswap e).mpr rfl,
    (hback _ hswap _).mpr rfl⟩, hm, hm', ?_, ?_⟩
  · rw [ne_eq, hfirst]
    rintro ⟨cell, _, hlit⟩
    exact absurd hlit (by simp [Display.isLit])
  · exact hsecond.mpr ⟨_, hink, by decide⟩

end Chip8
