import Mathlib.Algebra.BigOperators.Fin
import Chip8.Proofs.Effects
import Chip8.Proofs.Words

/-!
# Sprites on the display

A sprite may move while it is drawn: if VF gives its column or its row, the first collision sets VF
to 1 and shifts the squares that are still to come. Even so no cell is drawn on twice
(`nodup_cells`). Between two squares the place moves by one column or row at most, and forward, so
a square further down stays further down, and one further to the right in the same row stays there.

So each cell is flipped once or not at all (`isLit_foldl`), and VF tells whether a cell was put out
(`flag_foldl`). `draw_law` puts them together for the machine.
-/

namespace Chip8

namespace Display

/-- A cell, by its row and its column. -/
abbrev Cell := Fin height × Fin width

def isLit (d : Display) (cell : Cell) : Bool := d.get cell.1 cell.2

end Display

open Display (Cell)

namespace Sprite

/-! ## The squares of a sprite -/

/-- `s` is drawn before `t`: it is further up, or further to the left in the same row. -/
def Square.Before (s t : Square) : Prop := s.row < t.row ∨ (s.row = t.row ∧ s.col < t.col)

theorem pairwise_zipIdx (bytes : List UInt8) :
    bytes.zipIdx.Pairwise fun a b => a.2 < b.2 := by
  rw [List.pairwise_iff_getElem]
  intro i j hi hj hij
  rw [List.getElem_zipIdx, List.getElem_zipIdx]
  simpa using hij

theorem pairwise_squares (bytes : List UInt8) : (squares bytes).Pairwise Square.Before := by
  rw [squares, List.pairwise_flatMap]
  constructor
  · rintro ⟨byte, row⟩ _
    exact List.pairwise_map.mpr (List.pairwise_lt_range.imp fun h => .inr ⟨rfl, h⟩)
  · refine (pairwise_zipIdx bytes).imp fun hlt s hs t ht => ?_
    obtain ⟨_, _, rfl⟩ := List.mem_map.mp hs
    obtain ⟨_, _, rfl⟩ := List.mem_map.mp ht
    exact .inl hlt

theorem bounds_of_mem_squares {bytes : List UInt8} {s : Square} (h : s ∈ squares bytes) :
    s.row < bytes.length ∧ s.col < 8 := by
  obtain ⟨⟨byte, row⟩, hrow, hs⟩ := List.mem_flatMap.mp h
  obtain ⟨col, hcol, rfl⟩ := List.mem_map.mp hs
  have := List.snd_lt_of_mem_zipIdx hrow
  exact ⟨by simpa using this, List.mem_range.mp hcol⟩

/-- The number of bits of a byte that are 1. -/
def onesOf (byte : UInt8) : Nat := (List.range 8).countP byte.toNat.testBit

theorem countP_lit_squaresOfRow (row : Nat) (byte : UInt8) :
    (squaresOfRow row byte).countP Square.lit = onesOf byte := by
  -- the squares go from the highest bit to the lowest
  have hreverse : (List.range 8).reverse = (List.range 8).map (7 - ·) := rfl
  rw [squaresOfRow, List.countP_map, onesOf, ← List.countP_reverse (l := List.range 8), hreverse,
    List.countP_map]
  rfl

theorem countP_lit_squares (bytes : List UInt8) :
    (squares bytes).countP Square.lit = (bytes.map onesOf).sum := by
  have hrows : List.countP Square.lit ∘ (fun a : UInt8 × Nat => squaresOfRow a.2 a.1) =
      onesOf ∘ Prod.fst := by
    funext a
    exact countP_lit_squaresOfRow a.2 a.1
  rw [squares, List.countP_flatMap, hrows, ← List.map_map, List.zipIdx_map_fst]

theorem length_squares (bytes : List UInt8) : (squares bytes).length = 8 * bytes.length := by
  have hrow : ∀ a : UInt8 × Nat, (squaresOfRow a.2 a.1).length = 8 := by
    intro a
    rw [squaresOfRow, List.length_map, List.length_range]
  rw [squares, List.length_flatMap]
  simp only [hrow, List.map_const', List.length_zipIdx, List.sum_replicate, smul_eq_mul]
  omega

namespace Canvas

variable {x y : Nibble} {c c' : Canvas} {s : Square}

/-! ## The cells of a drawing -/

/-- The cell that a square is drawn on. -/
def cellOf (x y : Nibble) (c : Canvas) (s : Square) : Cell :=
  (Display.rowOf (c.regs[y].toNat + s.row), Display.colOf (c.regs[x].toNat + s.col))

/-- The cells that squares are drawn on, one after the other. -/
def cells (x y : Nibble) (c : Canvas) : List Square → List Cell
  | [] => []
  | s :: later => c.cellOf x y s :: cells x y (c.paint x y s) later

/-- The cells that set squares are drawn on. -/
def flips (x y : Nibble) (c : Canvas) : List Square → List Cell
  | [] => []
  | s :: later =>
    if s.lit then c.cellOf x y s :: flips x y (c.paint x y s) later
    else flips x y (c.paint x y s) later

theorem isLit_paint (cell : Cell) :
    (c.paint x y s).display.isLit cell =
      (c.display.isLit cell ^^ (s.lit && decide (c.cellOf x y s = cell))) := by
  show (c.display.toggle _ _ s.lit).2.get cell.1 cell.2 = _
  rw [Display.get_toggle]
  congr 2
  exact decide_eq_decide.mpr (Prod.ext_iff (x := c.cellOf x y s) (y := cell)).symm

theorem regs_paint :
    (c.paint x y s).regs =
      if c.display.isLit (c.cellOf x y s) && s.lit then c.regs.set flag 1 else c.regs := rfl

theorem length_cells (later : List Square) : (c.cells x y later).length = later.length := by
  induction later generalizing c with
  | nil => rfl
  | cons s later ih => rw [cells, List.length_cons, ih, List.length_cons]

theorem flips_sublist_cells (later : List Square) :
    (c.flips x y later).Sublist (c.cells x y later) := by
  induction later generalizing c with
  | nil => exact .slnil
  | cons s later ih =>
    rw [flips, cells]
    split
    · exact ih.cons_cons _
    · exact ih.cons _

theorem length_flips (later : List Square) :
    (c.flips x y later).length = later.countP Square.lit := by
  induction later generalizing c with
  | nil => rfl
  | cons s later ih =>
    rw [flips, List.countP_cons]
    split
    · rw [List.length_cons, ih]
    · rw [ih]
      rfl

/-! ## No cell is drawn on twice -/

/-- `c'` comes after `c` in a drawing: no register changed but VF, which may have gone up to 1. -/
structure Precedes (c c' : Canvas) : Prop where
  other : ∀ z, z ≠ flag → c'.regs[z] = c.regs[z]
  flag_le : c.regs[flag].toNat ≤ c'.regs[flag].toNat
  flag_le_one : c'.regs[flag].toNat ≤ 1

theorem Precedes.refl (h : c.regs[flag].toNat ≤ 1) : c.Precedes c :=
  ⟨fun _ _ => rfl, Nat.le_refl _, h⟩

theorem Precedes.trans {c'' : Canvas} (h : c.Precedes c') (h' : c'.Precedes c'') :
    c.Precedes c'' where
  other z hz := (h'.other z hz).trans (h.other z hz)
  flag_le := Nat.le_trans h.flag_le h'.flag_le
  flag_le_one := h'.flag_le_one

theorem precedes_paint (h : c.regs[flag].toNat ≤ 1) : c.Precedes (c.paint x y s) := by
  have hregs : (c.paint x y s).regs = _ := regs_paint
  split at hregs
  · have hflag : (c.paint x y s).regs[flag] = 1 := by
      rw [hregs]
      exact c.regs.getElem_set_self flag 1
    refine ⟨fun z hz => ?_, ?_, ?_⟩
    · rw [hregs]
      exact c.regs.getElem_set_of_ne hz 1
    · rw [hflag]
      exact h
    · rw [hflag]
      exact Nat.le_refl 1
  · refine ⟨fun z _ => ?_, ?_, ?_⟩
    · rw [hregs]
    · rw [hregs]
    · rw [hregs]
      exact h

/-- The place of a drawing moves by one at most, and forward. -/
theorem Precedes.bounds (h : c.Precedes c') (z : Nibble) :
    c.regs[z].toNat ≤ c'.regs[z].toNat ∧ c'.regs[z].toNat ≤ c.regs[z].toNat + 1 := by
  by_cases hz : z = flag
  · subst hz
    exact ⟨h.flag_le, Nat.le_trans h.flag_le_one (Nat.le_add_left _ _)⟩
  · rw [h.other z hz]
    exact ⟨Nat.le_refl _, Nat.le_succ _⟩

theorem cellOf_ne {t : Square} (hst : s.Before t) (hrow : t.row < 16) (hcol : t.col < 8)
    (h : c.Precedes c') : c.cellOf x y s ≠ c'.cellOf x y t := by
  intro heq
  obtain ⟨hrows, hcols⟩ := Prod.mk.inj heq
  have hy := h.bounds y
  have hx := h.bounds x
  have hrowMod : (c.regs[y].toNat + s.row) % 32 = (c'.regs[y].toNat + t.row) % 32 :=
    congrArg Fin.val hrows
  have hcolMod : (c.regs[x].toNat + s.col) % 64 = (c'.regs[x].toNat + t.col) % 64 :=
    congrArg Fin.val hcols
  rcases hst with hlt | ⟨hsame, hlt⟩ <;> omega

theorem exists_of_mem_cells {later : List Square} {cell : Cell} (hflag : c.regs[flag].toNat ≤ 1)
    (h : cell ∈ c.cells x y later) :
    ∃ t ∈ later, ∃ c', c.Precedes c' ∧ c'.cellOf x y t = cell := by
  induction later generalizing c with
  | nil => exact (List.not_mem_nil h).elim
  | cons s later ih =>
    rcases List.mem_cons.mp h with rfl | h
    · exact ⟨s, List.mem_cons_self, c, .refl hflag, rfl⟩
    · have hpaint : c.Precedes (c.paint x y s) := precedes_paint hflag
      obtain ⟨t, ht, c', hc', hcell⟩ := ih hpaint.flag_le_one h
      exact ⟨t, List.mem_cons_of_mem _ ht, c', hpaint.trans hc', hcell⟩

/-- No cell is drawn on twice, even if VF gives the place. -/
theorem nodup_cells {later : List Square} (hflag : c.regs[flag].toNat ≤ 1)
    (horder : later.Pairwise Square.Before) (hbounds : ∀ t ∈ later, t.row < 16 ∧ t.col < 8) :
    (c.cells x y later).Nodup := by
  induction later generalizing c with
  | nil => exact List.nodup_nil
  | cons s later ih =>
    rw [List.pairwise_cons] at horder
    rw [List.forall_mem_cons] at hbounds
    have hpaint : c.Precedes (c.paint x y s) := precedes_paint hflag
    rw [cells, List.nodup_cons]
    refine ⟨fun hmem => ?_, ih hpaint.flag_le_one horder.2 hbounds.2⟩
    obtain ⟨t, ht, c', hc', hcell⟩ := exists_of_mem_cells hpaint.flag_le_one hmem
    obtain ⟨hrow, hcol⟩ := hbounds.2 t ht
    exact cellOf_ne (horder.1 t ht) hrow hcol (hpaint.trans hc') hcell.symm

/-! ## What a drawing leaves -/

theorem isLit_foldl {later : List Square} (hnodup : (c.cells x y later).Nodup) (cell : Cell) :
    (later.foldl (paint x y) c).display.isLit cell =
      (c.display.isLit cell ^^ decide (cell ∈ c.flips x y later)) := by
  induction later generalizing c with
  | nil => simp [flips]
  | cons s later ih =>
    obtain ⟨hfresh, hnodup⟩ := List.nodup_cons.mp hnodup
    have hnew : c.cellOf x y s ∉ (c.paint x y s).flips x y later :=
      fun h => hfresh ((flips_sublist_cells later).mem h)
    rw [List.foldl_cons, ih hnodup, isLit_paint, flips]
    cases s.lit with
    | false => simp
    | true =>
      by_cases hcell : c.cellOf x y s = cell
      · subst hcell
        simp [hnew]
      · simp [hcell, Ne.symm hcell]

/-- VF is set if a cell is put out, and else left alone. -/
theorem flag_foldl {later : List Square} (hnodup : (c.cells x y later).Nodup) :
    (later.foldl (paint x y) c).regs[flag] =
      if (c.flips x y later).any c.display.isLit then 1 else c.regs[flag] := by
  induction later generalizing c with
  | nil => rfl
  | cons s later ih =>
    obtain ⟨hfresh, hnodup⟩ := List.nodup_cons.mp hnodup
    -- the cells that are still to come are as they were
    have hlit : ∀ cell ∈ (c.paint x y s).flips x y later,
        (c.paint x y s).display.isLit cell = c.display.isLit cell := by
      intro cell hcell
      have hne : c.cellOf x y s ≠ cell := by
        rintro rfl
        exact hfresh ((flips_sublist_cells later).mem hcell)
      rw [isLit_paint, decide_eq_false hne, Bool.and_false, Bool.xor_false]
    have hany : ((c.paint x y s).flips x y later).any (c.paint x y s).display.isLit =
        ((c.paint x y s).flips x y later).any c.display.isLit := by
      rw [Bool.eq_iff_iff, List.any_eq_true, List.any_eq_true]
      exact exists_congr fun cell => and_congr_right fun hcell => by rw [hlit cell hcell]
    rw [List.foldl_cons, ih hnodup, hany, regs_paint, flips]
    cases hs : s.lit with
    | false => simp
    | true =>
      cases hc : c.display.isLit (c.cellOf x y s) with
      | false => simp [hc]
      | true => simp [hc, Registers.getElem_set_self]

theorem precedes_foldl (hflag : c.regs[flag].toNat ≤ 1) (later : List Square) :
    c.Precedes (later.foldl (paint x y) c) := by
  induction later generalizing c with
  | nil => exact .refl hflag
  | cons s later ih =>
    have hpaint : c.Precedes (c.paint x y s) := precedes_paint hflag
    exact hpaint.trans (ih hpaint.flag_le_one)

end Canvas

end Sprite

/-! ## The machine -/

theorem readRun_eq_ofFn {α : Type} {n : Nat} (v : Vector α n) {start length : Nat}
    (h : start + length ≤ n) :
    readRun v start length = List.ofFn fun j : Fin length =>
      v.get ⟨start + j, Nat.lt_of_lt_of_le (Nat.add_lt_add_left j.isLt start) h⟩ := by
  apply List.ext_getElem?
  intro i
  rw [getElem?_readRun, List.getElem?_ofFn]
  by_cases hi : i < length
  · rw [if_pos hi, dif_pos hi, Vector.getElem?_eq_getElem (by omega)]
    rfl
  · rw [if_neg hi, dif_neg hi]

/-- The cells in which two displays differ. -/
def Display.changed (d e : Display) : Finset Cell :=
  Finset.univ.filter fun cell => d.isLit cell ≠ e.isLit cell

namespace Machine

open Sprite (squares onesOf)

section

variable (m : Machine) (x y n : Nibble)

/-- The display and the registers when a drawing starts. -/
def canvas : Sprite.Canvas := ⟨m.display, m.regs.set flag 0⟩

/-- The cells that `Dxyn` draws on, one after the other. -/
def drawnCells : List Cell := m.canvas.cells x y (squares (m.readIndex n))

/-- The cells that `Dxyn` flips, one after the other. -/
def flippedCells : List Cell := m.canvas.flips x y (squares (m.readIndex n))

theorem flag_canvas : m.canvas.regs[flag] = 0 := m.regs.getElem_set_self flag 0

theorem flag_canvas_le_one : m.canvas.regs[flag].toNat ≤ 1 := by
  rw [flag_canvas]
  exact Nat.zero_le 1

variable {m x y n} (h : m.index.toNat + n.val ≤ Memory.size)

theorem mem_drawnCells {cell : Cell} (hcell : cell ∈ m.flippedCells x y n) :
    cell ∈ m.drawnCells x y n :=
  (Sprite.Canvas.flips_sublist_cells _).mem hcell

include h

theorem length_drawnCells : (m.drawnCells x y n).length = 8 * n.val := by
  rw [drawnCells, Sprite.Canvas.length_cells, Sprite.length_squares, readIndex, length_readRun h]

theorem nodup_drawnCells : (m.drawnCells x y n).Nodup := by
  apply Sprite.Canvas.nodup_cells m.flag_canvas_le_one (Sprite.pairwise_squares _)
  intro s hs
  have hbounds := Sprite.bounds_of_mem_squares hs
  have hlength : (m.readIndex n).length = n.val := length_readRun h
  have := n.isLt
  omega

/-- As many cells are flipped as the sprite has bits that are 1. -/
theorem length_flippedCells :
    (m.flippedCells x y n).length = ∑ j : Fin n.val, onesOf (m.memory.get
      ⟨m.index.toNat + j, Nat.lt_of_lt_of_le (Nat.add_lt_add_left j.isLt _) h⟩) := by
  rw [flippedCells, Sprite.Canvas.length_flips, Sprite.countP_lit_squares, readIndex,
    readRun_eq_ofFn m.memory h, List.map_ofFn, List.sum_ofFn]
  rfl

theorem isLit_draw (cell : Cell) :
    (m.after (.draw x y n)).display.isLit cell =
      (m.display.isLit cell ^^ decide (cell ∈ m.flippedCells x y n)) :=
  Sprite.Canvas.isLit_foldl (nodup_drawnCells h) cell

theorem isLit_draw_ne_iff (cell : Cell) :
    (m.after (.draw x y n)).display.isLit cell ≠ m.display.isLit cell ↔
      cell ∈ m.flippedCells x y n := by
  rw [isLit_draw h]
  cases m.display.isLit cell <;> simp

theorem card_changed_draw :
    (m.display.changed (m.after (.draw x y n)).display).card = (m.flippedCells x y n).length := by
  have hnodup : (m.flippedCells x y n).Nodup :=
    (nodup_drawnCells h).sublist (Sprite.Canvas.flips_sublist_cells _)
  rw [← List.toFinset_card_of_nodup hnodup]
  congr 1
  ext cell
  rw [Display.changed, Finset.mem_filter_univ, List.mem_toFinset, ne_comm, isLit_draw_ne_iff h]

theorem flag_draw :
    (m.after (.draw x y n)).regs[flag] =
      if (m.flippedCells x y n).any m.display.isLit then 1 else 0 := by
  have hflag := Sprite.Canvas.flag_foldl (nodup_drawnCells (x := x) (y := y) h)
  rw [flag_canvas] at hflag
  exact hflag

/-- A lit cell is put out exactly if it is flipped. -/
theorem exists_putOut_iff :
    (∃ cell, m.display.isLit cell = true ∧
        (m.after (.draw x y n)).display.isLit cell = false) ↔
      (m.flippedCells x y n).any m.display.isLit = true := by
  rw [List.any_eq_true]
  refine exists_congr fun cell => ?_
  rw [isLit_draw h]
  cases m.display.isLit cell <;> simp

end

/-- What `Dxyn` does if its sprite lies in memory, wherever it is drawn, also at a place that VF
gives. It draws on 8n cells, all of them different. As many cells change as the sprite has bits that
are 1. VF becomes 1 if a lit cell was put out, and else 0, as on a blank display. -/
theorem draw_law (m : Machine) (x y n : Nibble) (h : m.index.toNat + n.val ≤ Memory.size) :
    let drawn := m.drawnCells x y n
    let next := (m.execute (.draw x y n)).2
    (m.execute (.draw x y n)).1 = .ok .ran ∧
    (m.paused = false → m.WordAtPc (Instruction.registerWord 0xD x y n) →
      m.step = m.execute (.draw x y n)) ∧
    drawn.length = 8 * n.val ∧ drawn.Nodup ∧
    (∀ cell, next.display.isLit cell ≠ m.display.isLit cell → cell ∈ drawn) ∧
    (m.display.changed next.display).card = ∑ j : Fin n.val, onesOf (m.memory.get
      ⟨m.index.toNat + j, Nat.lt_of_lt_of_le (Nat.add_lt_add_left j.isLt _) h⟩) ∧
    (next.regs[flag] = 1 ↔
      ∃ cell, m.display.isLit cell = true ∧ next.display.isLit cell = false) ∧
    (next.regs[flag] = 0 ↔
      ¬ ∃ cell, m.display.isLit cell = true ∧ next.display.isLit cell = false) ∧
    (m.display = Display.blank → next.regs[flag] = 0) := by
  intro drawn next
  have hfault : m.faultOf (.draw x y n) = none := if_neg (Nat.not_lt.mpr h)
  have hexecute := execute_eq_after hfault
  have hnext : next = m.after (.draw x y n) := congrArg Prod.snd hexecute
  have hflag := flag_draw (x := x) (y := y) h
  rw [hnext, exists_putOut_iff h]
  refine ⟨by rw [hexecute]; rfl, fun hp hw => ?_, length_drawnCells h, nodup_drawnCells h,
    fun cell hcell => mem_drawnCells ((isLit_draw_ne_iff h cell).mp hcell), ?_, ?_, ?_, ?_⟩
  · have hword : Instruction.ofWord (Instruction.registerWord 0xD x y n) = .draw x y n :=
      Instruction.ofWord_toWord (i := .draw x y n) trivial
    rw [step_eq_after hp (fetch_of_wordAtPc hw) (hword ▸ hfault), hword, hexecute]
  · rw [card_changed_draw h, length_flippedCells h]
  · rw [hflag]
    cases (m.flippedCells x y n).any m.display.isLit <;> simp
  · rw [hflag]
    cases (m.flippedCells x y n).any m.display.isLit <;> simp
  · intro hblank
    rw [hflag, hblank]
    simp [Display.isLit]

/-- `DFF5` draws the glyph of 0 with both coordinates from VF. Its third square puts out a cell, and
what comes after that is drawn a row further down and a column further to the right. On a blank
display it stays in its place. -/
theorem draw_law_moving :
    let blank := boot [0xDF, 0xF5] minSpeed { key := .ofSeed 0 }
    let m := { blank with display := Display.blank.set 0 2 true }
    (m.drawnCells 15 15 5).Nodup ∧ m.drawnCells 15 15 5 ≠ blank.drawnCells 15 15 5 ∧
      (m.display.changed m.step.2.display).card = 14 ∧
      (∃ cell, m.display.isLit cell = true ∧ m.step.2.display.isLit cell = false) ∧
      (blank.execute (.draw 15 15 5)).2.regs[flag] = 0 := by
  intro blank m
  obtain ⟨_, hstep, _, hnodup, _, hcard, hput, _⟩ := draw_law m 15 15 5 (by decide)
  have hw : m.WordAtPc (Instruction.registerWord 0xD 15 15 5) := by
    refine ⟨0xDF, 0xF5, ?_, ?_, by decide⟩
    · exact Memory.getElem?_image_rom (i := 0) (by decide) (by decide)
    · exact Memory.getElem?_image_rom (i := 1) (by decide) (by decide)
  have hflag : (m.execute (.draw 15 15 5)).2.regs[flag] = 1 := by decide +kernel
  rw [hstep rfl hw]
  refine ⟨hnodup, by decide +kernel, ?_, hput.mp hflag, ?_⟩
  · rw [hcard]
    decide +kernel
  · obtain ⟨_, _, _, _, _, _, _, _, hblank⟩ := draw_law blank 15 15 5 (by decide)
    exact hblank rfl

end Machine

end Chip8
