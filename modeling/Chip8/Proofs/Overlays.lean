import Chip8.Proofs.Bounds
import Chip8.Proofs.Sprites

/-!
# Sprites as overlays

A sprite is drawn square by square, and one placed by VF may move while it is drawn. What is drawn
can still be told all at once: each square has a cell of its own, and the set squares flip theirs
(`Display.Overlaid`).

* `overlay_law`: a sprite that VF does not place lies where Vx and Vy say.
* `phase_law`: any sprite is placed with VF read as 0 up to and including the first square that hits
  a lit cell, and with VF read as 1 after it.

A place can change only when VF does. It stays for good if VF gives no coordinate or is 1 already
(`cells_of_still`), and as long as nothing is hit (`cells_of_clear`). Both laws are put together
from these two. That the first hit can be told from the display before the drawing is due to
`nodup_cells`: the squares before it are drawn on other cells.
-/

namespace Chip8

open Display (Cell)

/-! ## Overlays -/

namespace Sprite

/-- The square is one of the eight of a row: column 0 shows the highest bit of the byte. -/
def Square.Reads (s : Square) (byte : UInt8) : Prop :=
  s.col < 8 ∧ s.lit = byte.toNat.testBit (7 - s.col)

/-- The cell of a square if column 0 and row 0 of its sprite are at `left` and `top`. Both edges
are wrapped around. -/
def Square.cellAt (left top : Nat) (s : Square) : Cell :=
  (Display.rowOf (top + s.row), Display.colOf (left + s.col))

end Sprite

open Sprite (Square)

/-- The square is set, and its cell is lit. -/
def Display.Hit (d : Display) (place : Square → Cell) (s : Square) : Prop :=
  s.lit = true ∧ d.isLit (place s) = true

/-- `e` is `d` with squares laid over it, each on a cell of its own. A cell under a square is
flipped if the square is set, and the other cells stay. -/
structure Display.Overlaid (d : Display) (shown : Square → Prop) (place : Square → Cell)
    (e : Display) : Prop where
  injective : ∀ s t, shown s → shown t → place s = place t → s = t
  covered : ∀ s, shown s → e.isLit (place s) = (d.isLit (place s) ^^ s.lit)
  uncovered : ∀ cell, (∀ s, shown s → place s ≠ cell) → e.isLit cell = d.isLit cell

namespace Sprite

theorem mem_squares_iff {bytes : List UInt8} {s : Square} :
    s ∈ squares bytes ↔ ∃ byte, bytes[s.row]? = some byte ∧ s.Reads byte := by
  rw [squares, List.mem_flatMap]
  constructor
  · rintro ⟨⟨byte, row⟩, hrow, hs⟩
    obtain ⟨col, hcol, rfl⟩ := List.mem_map.mp hs
    exact ⟨byte, List.mem_zipIdx_iff_getElem?.mp hrow, List.mem_range.mp hcol, rfl⟩
  · rintro ⟨byte, hbyte, hcol, hlit⟩
    refine ⟨(byte, s.row), List.mem_zipIdx_iff_getElem?.mpr hbyte, ?_⟩
    refine List.mem_map.mpr ⟨s.col, List.mem_range.mpr hcol, ?_⟩
    rw [← hlit]

/-! ## The order of the squares -/

instance (s t : Square) : Decidable (s.Before t) := inferInstanceAs (Decidable (_ ∨ _))

theorem Square.Before.irrefl (s : Square) : ¬ s.Before s := by
  rintro (h | ⟨_, h⟩) <;> exact Nat.lt_irrefl _ h

theorem Square.Before.asymm {s t : Square} (h : s.Before t) : ¬ t.Before s := by
  rintro (h' | ⟨h', h''⟩) <;> rcases h with h | ⟨h, _⟩ <;> omega

namespace Canvas

variable {x y : Nibble} {c c' : Canvas} {s : Square} {later : List Square} {place : Square → Cell}

/-! ## Drawings with known places -/

theorem mem_flips_iff (hplace : c.cells x y later = later.map place) {cell : Cell} :
    cell ∈ c.flips x y later ↔ ∃ s ∈ later, s.lit = true ∧ place s = cell := by
  induction later generalizing c with
  | nil => simp [flips]
  | cons s later ih =>
    obtain ⟨hhead, htail⟩ := List.cons.inj hplace
    rw [flips, List.exists_mem_cons_iff, ← ih htail, hhead]
    cases s.lit with
    | false => simp
    | true => simp [eq_comm]

theorem any_flips_iff (hplace : c.cells x y later = later.map place) :
    (c.flips x y later).any c.display.isLit = true ↔ ∃ s ∈ later, c.display.Hit place s := by
  rw [List.any_eq_true]
  constructor
  · rintro ⟨cell, hcell, hlit⟩
    obtain ⟨s, hs, hset, rfl⟩ := (mem_flips_iff hplace).mp hcell
    exact ⟨s, hs, hset, hlit⟩
  · rintro ⟨s, hs, hset, hlit⟩
    exact ⟨place s, (mem_flips_iff hplace).mpr ⟨s, hs, hset, rfl⟩, hlit⟩

theorem overlaid_foldl (hnodup : (c.cells x y later).Nodup)
    (hplace : c.cells x y later = later.map place) :
    c.display.Overlaid (· ∈ later) place (later.foldl (paint x y) c).display := by
  have hinj : ∀ s t, s ∈ later → t ∈ later → place s = place t → s = t := by
    intro s t hs ht
    rw [hplace] at hnodup
    exact List.inj_on_of_nodup_map hnodup hs ht
  refine ⟨hinj, fun s hs => ?_, fun cell hcell => ?_⟩
  · have hset : decide (place s ∈ c.flips x y later) = s.lit := by
      rw [Bool.eq_iff_iff, decide_eq_true_iff, mem_flips_iff hplace]
      refine ⟨?_, fun hset => ⟨s, hs, hset, rfl⟩⟩
      rintro ⟨t, ht, hset, heq⟩
      exact hinj t s ht hs heq ▸ hset
    rw [isLit_foldl hnodup, hset]
  · have hbare : cell ∉ c.flips x y later := by
      rw [mem_flips_iff hplace]
      rintro ⟨s, hs, _, heq⟩
      exact hcell s hs heq
    rw [isLit_foldl hnodup, decide_eq_false hbare, Bool.xor_false]

/-- VF is set if a square hits, and else left alone. -/
theorem flag_foldl_of_place (hnodup : (c.cells x y later).Nodup)
    (hplace : c.cells x y later = later.map place) :
    ((∃ s ∈ later, c.display.Hit place s) → (later.foldl (paint x y) c).regs[flag] = 1) ∧
    ((¬ ∃ s ∈ later, c.display.Hit place s) →
      (later.foldl (paint x y) c).regs[flag] = c.regs[flag]) := by
  rw [flag_foldl hnodup, ← any_flips_iff hplace]
  exact ⟨fun h => if_pos h, fun h => if_neg h⟩

/-! ## Where the place stays -/

theorem cellOf_congr (hx : c'.regs[x] = c.regs[x]) (hy : c'.regs[y] = c.regs[y]) :
    c'.cellOf x y = c.cellOf x y := by
  funext s
  rw [cellOf, cellOf, hx, hy]

theorem cells_eq_map
    (h : ∀ drawn : List Square, (drawn.foldl (paint x y) c).cellOf x y = c.cellOf x y) :
    c.cells x y later = later.map (c.cellOf x y) := by
  induction later generalizing c with
  | nil => rfl
  | cons s later ih =>
    have hpaint : (c.paint x y s).cellOf x y = c.cellOf x y := h [s]
    have hlater := ih fun drawn => (h (s :: drawn)).trans hpaint.symm
    rw [cells, List.map_cons, hlater, hpaint]

theorem Precedes.same (h : c.Precedes c') {z : Nibble} (hz : z ≠ flag ∨ c.regs[flag] = 1) :
    c'.regs[z] = c.regs[z] := by
  by_cases heq : z = flag
  · subst heq
    have hone : c.regs[flag] = 1 := hz.resolve_left fun hne => hne rfl
    have hle := h.flag_le
    rw [hone] at hle ⊢
    exact UInt8.toNat_inj.mp (Nat.le_antisymm h.flag_le_one hle)
  · exact h.other z heq

/-- The place stays for good if VF gives no coordinate, or if VF is 1. -/
theorem cells_of_still (hflag : c.regs[flag].toNat ≤ 1) (hx : x ≠ flag ∨ c.regs[flag] = 1)
    (hy : y ≠ flag ∨ c.regs[flag] = 1) : c.cells x y later = later.map (c.cellOf x y) := by
  apply cells_eq_map
  intro drawn
  have hdrawn := precedes_foldl (x := x) (y := y) hflag drawn
  exact cellOf_congr (hdrawn.same hx) (hdrawn.same hy)

theorem cells_append (before after : List Square) :
    c.cells x y (before ++ after) =
      c.cells x y before ++ (before.foldl (paint x y) c).cells x y after := by
  induction before generalizing c with
  | nil => rfl
  | cons s before ih => rw [List.cons_append, cells, ih, cells, List.cons_append, List.foldl_cons]

theorem regs_foldl_of_flag (hflag : c.regs[flag].toNat ≤ 1)
    (h : (later.foldl (paint x y) c).regs[flag] = c.regs[flag]) :
    (later.foldl (paint x y) c).regs = c.regs := by
  apply Registers.ext
  intro z
  by_cases hz : z = flag
  · rw [hz, h]
  · exact (precedes_foldl hflag later).other z hz

/-- As long as nothing is hit the place stays, and so do all registers. -/
theorem cells_of_clear (hflag : c.regs[flag].toNat ≤ 1) (hnodup : (c.cells x y later).Nodup)
    (hclear : ∀ s ∈ later, ¬ c.display.Hit (c.cellOf x y) s) :
    c.cells x y later = later.map (c.cellOf x y) ∧
      (later.foldl (paint x y) c).regs = c.regs := by
  -- the place of the last square is known once the squares before it have left VF alone
  induction later using List.reverseRecOn with
  | nil => exact ⟨rfl, rfl⟩
  | append_singleton before s ih =>
    have hfresh := hnodup
    rw [cells_append] at hfresh
    obtain ⟨hbefore, hregs⟩ := ih hfresh.of_append_left
      fun t ht => hclear t (List.mem_append_left _ ht)
    have hcells : c.cells x y (before ++ [s]) = (before ++ [s]).map (c.cellOf x y) := by
      rw [cells_append, hbefore, List.map_append, cells, cells, cellOf, hregs]
      rfl
    refine ⟨hcells, regs_foldl_of_flag hflag ?_⟩
    apply (flag_foldl_of_place hnodup hcells).2
    rintro ⟨t, ht, hhit⟩
    exact hclear t ht hhit

/-- The first hit sets VF, and the squares after it are placed with that. -/
theorem cells_of_hit {before after : List Square} {p : Square} (hflag : c.regs[flag].toNat ≤ 1)
    (hnodup : (c.cells x y (before ++ p :: after)).Nodup)
    (hclear : ∀ s ∈ before, ¬ c.display.Hit (c.cellOf x y) s)
    (hp : c.display.Hit (c.cellOf x y) p) (raised : Canvas)
    (hraised : raised.regs = c.regs.set flag 1) :
    c.cells x y (before ++ p :: after) =
      before.map (c.cellOf x y) ++ c.cellOf x y p :: after.map (raised.cellOf x y) := by
  rw [cells_append] at hnodup ⊢
  obtain ⟨hbefore, hregs⟩ := cells_of_clear hflag hnodup.of_append_left hclear
  -- the canvas at the first hit
  obtain ⟨c', hc'⟩ : ∃ c', c' = before.foldl (paint x y) c := ⟨_, rfl⟩
  rw [← hc'] at hnodup hregs ⊢
  have hcell : c'.cellOf x y p = c.cellOf x y p := by rw [cellOf, cellOf, hregs]
  have hlit : c'.display.isLit (c'.cellOf x y p) = true := by
    have hfresh : c.cellOf x y p ∉ c.flips x y before := by
      intro hmem
      have hdisjoint := (List.nodup_append.mp hnodup).2.2
      exact hdisjoint _ ((flips_sublist_cells before).mem hmem) _
        (hcell ▸ List.mem_cons_self) rfl
    rw [hcell, hc', isLit_foldl hnodup.of_append_left, hp.2, decide_eq_false hfresh]
    rfl
  have hpaint : (c'.paint x y p).regs = raised.regs := by
    rw [regs_paint, hlit, hp.1, hraised, hregs]
    rfl
  have hone : (c'.paint x y p).regs[flag] = 1 := by
    rw [hpaint, hraised]
    exact c.regs.getElem_set_self flag 1
  have hafter : (c'.paint x y p).cells x y after = after.map (raised.cellOf x y) := by
    rw [cells_of_still (hone ▸ Nat.le_refl 1) (.inr hone) (.inr hone)]
    congr 1
    exact cellOf_congr (by rw [hpaint]) (by rw [hpaint])
  rw [hbefore, cells, hcell, hafter]

end Canvas

end Sprite

theorem Display.Overlaid.congr {d e : Display} {shown shown' : Square → Prop}
    {place place' : Square → Cell} (h : d.Overlaid shown place e)
    (hshown : ∀ s, shown' s ↔ shown s) (hplace : ∀ s, shown s → place' s = place s) :
    d.Overlaid shown' place' e := by
  obtain rfl : shown' = shown := funext fun s => propext (hshown s)
  refine ⟨fun s t hs ht => ?_, fun s hs => ?_, fun cell hcell => ?_⟩
  · rw [hplace s hs, hplace t ht]
    exact h.injective s t hs ht
  · rw [hplace s hs]
    exact h.covered s hs
  · exact h.uncovered cell fun s hs => hplace s hs ▸ hcell s hs

/-! ## The machine -/

namespace Machine

open Sprite (Canvas squares)

/-- `s` is a square of the sprite of `n` rows at I. -/
def Shows (m : Machine) (n : Nibble) (s : Square) : Prop :=
  s.row < n.val ∧ ∃ byte, m.memory[m.index.toNat + s.row]? = some byte ∧ s.Reads byte

/-- The cell of a square of a sprite at (Vx, Vy), with VF read as `vf`. -/
def cellWith (m : Machine) (x y : Nibble) (vf : UInt8) (s : Square) : Cell :=
  let v := m.regs.set flag vf
  s.cellAt v[x].toNat v[y].toNat

/-- With VF read as 0, the square hits a lit cell. -/
def Hits (m : Machine) (x y n : Nibble) (s : Square) : Prop :=
  m.Shows n s ∧ m.display.Hit (m.cellWith x y 0) s

section

variable {m : Machine} {x y n : Nibble}

theorem mem_squares_readIndex {s : Square} : s ∈ squares (m.readIndex n) ↔ m.Shows n s := by
  rw [Sprite.mem_squares_iff, Shows, readIndex, getElem?_readRun]
  split
  · next h => exact (and_iff_right h).symm
  · next h =>
    refine iff_of_false ?_ fun hs => h hs.1
    rintro ⟨_, hnone, _⟩
    cases hnone

theorem cellWith_of_ne (hx : x ≠ flag) (hy : y ≠ flag) (vf : UInt8) :
    m.cellWith x y vf = Square.cellAt m.regs[x].toNat m.regs[y].toNat := by
  funext s
  rw [cellWith, Registers.getElem_set, Registers.getElem_set, if_neg hx, if_neg hy]

theorem cellWith_one (s : Square) :
    m.cellWith x y 1 s = ((m.cellWith x y 0 s).1 + if y = flag then 1 else 0,
      (m.cellWith x y 0 s).2 + if x = flag then 1 else 0) := by
  have hmove : ∀ (size offset : Nat) [NeZero size] (z : Nibble),
      Fin.ofNat size ((m.regs.set flag 1)[z].toNat + offset) =
        Fin.ofNat size ((m.regs.set flag 0)[z].toNat + offset) + if z = flag then 1 else 0 := by
    intro size offset _ z
    rw [Registers.getElem_set, Registers.getElem_set]
    split
    · apply Fin.ext
      simp [Fin.val_add, Nat.add_comm]
    · rw [Fin.add_zero]
  exact Prod.ext (hmove _ _ y) (hmove _ _ x)

theorem ofWord_draw (x y n : Nibble) :
    Instruction.ofWord (Instruction.registerWord 0xD x y n) = .draw x y n :=
  Instruction.ofWord_toWord (i := .draw x y n) trivial

variable (h : m.index.toNat + n.val ≤ Memory.size)

include h

theorem execute_draw : m.execute (.draw x y n) = (.ok .ran, m.after (.draw x y n)) :=
  execute_eq_after (if_neg (Nat.not_lt.mpr h))

theorem step_draw (hp : m.paused = false)
    (hw : m.WordAtPc (Instruction.registerWord 0xD x y n)) :
    m.step = m.execute (.draw x y n) := by
  have hword := ofWord_draw x y n
  have hfault : m.faultOf (.draw x y n) = none := if_neg (Nat.not_lt.mpr h)
  rw [step_eq_after hp (fetch_of_wordAtPc hw) (hword ▸ hfault), hword, execute_draw h]
  rfl

/-- Without a hit a sprite is drawn at one place. -/
theorem draw_of_clear (hclear : ¬ ∃ s, m.Hits x y n s) :
    m.display.Overlaid (m.Shows n) (m.cellWith x y 0) (m.after (.draw x y n)).display ∧
      (m.after (.draw x y n)).regs[flag] = 0 := by
  have hnodup := nodup_drawnCells (x := x) (y := y) h
  obtain ⟨hcells, hregs⟩ := Canvas.cells_of_clear m.flag_canvas_le_one hnodup
    fun s hs hhit => hclear ⟨s, mem_squares_readIndex.mp hs, hhit⟩
  constructor
  · exact (Canvas.overlaid_foldl hnodup hcells).congr (fun _ => mem_squares_readIndex.symm)
      fun _ _ => rfl
  · exact (congrArg (fun v : Registers => v[flag]) hregs).trans m.flag_canvas

theorem cells_draw_of_hit {p : Square} (hp : m.Hits x y n p)
    (hfirst : ∀ s, m.Hits x y n s → ¬ s.Before p) :
    m.drawnCells x y n = (squares (m.readIndex n)).map
      fun s => m.cellWith x y (if p.Before s then 1 else 0) s := by
  obtain ⟨before, after, hsplit⟩ := List.append_of_mem (mem_squares_readIndex.mpr hp.1)
  have horder := Sprite.pairwise_squares (m.readIndex n)
  rw [hsplit, List.pairwise_append, List.pairwise_cons] at horder
  obtain ⟨_, ⟨hafter, _⟩, hbefore⟩ := horder
  have hclear : ∀ s ∈ before, ¬ m.display.Hit (m.cellWith x y 0) s := by
    intro s hs hhit
    have hshown := mem_squares_readIndex.mp (hsplit ▸ List.mem_append_left _ hs)
    exact hfirst s ⟨hshown, hhit⟩ (hbefore s hs p List.mem_cons_self)
  have hnodup := nodup_drawnCells (x := x) (y := y) h
  rw [drawnCells, hsplit] at hnodup ⊢
  rw [Canvas.cells_of_hit m.flag_canvas_le_one hnodup hclear hp.2 ⟨m.display, m.regs.set flag 1⟩
      (m.regs.set_set flag 0 1).symm,
    List.map_append, List.map_cons, if_neg (Square.Before.irrefl p)]
  congr 1
  · apply List.map_congr_left
    intro s hs
    rw [if_neg (hbefore s hs p List.mem_cons_self).asymm]
    rfl
  · congr 1
    apply List.map_congr_left
    intro s hs
    rw [if_pos (hafter s hs)]
    rfl

/-- A sprite that hits is drawn at two places, and the first hit parts them. -/
theorem draw_of_hit {p : Square} (hp : m.Hits x y n p)
    (hfirst : ∀ s, m.Hits x y n s → ¬ s.Before p) :
    m.display.Overlaid (m.Shows n) (fun s => m.cellWith x y (if p.Before s then 1 else 0) s)
        (m.after (.draw x y n)).display ∧
      (m.after (.draw x y n)).regs[flag] = 1 := by
  have hnodup := nodup_drawnCells (x := x) (y := y) h
  have hcells := cells_draw_of_hit h hp hfirst
  have hhit : m.display.Hit (fun s => m.cellWith x y (if p.Before s then 1 else 0) s) p := by
    show p.lit = true ∧ m.display.isLit (m.cellWith x y (if p.Before p then 1 else 0) p) = true
    rw [if_neg (Square.Before.irrefl p)]
    exact hp.2
  constructor
  · exact (Canvas.overlaid_foldl hnodup hcells).congr (fun _ => mem_squares_readIndex.symm)
      fun _ _ => rfl
  · exact (Canvas.flag_foldl_of_place hnodup hcells).1 ⟨p, mem_squares_readIndex.mpr hp.1, hhit⟩

end

/-- Of the squares that hit there is a first one. -/
theorem exists_first_hit {m : Machine} {x y n : Nibble} (h : ∃ s, m.Hits x y n s) :
    ∃ p, m.Hits x y n p ∧ ∀ s, m.Hits x y n s → ¬ s.Before p := by
  classical
  obtain ⟨s, hs⟩ := h
  cases hfind : (squares (m.readIndex n)).find? fun s => m.Hits x y n s with
  | none =>
    have hnone := List.find?_eq_none.mp hfind s (mem_squares_readIndex.mpr hs.1)
    exact absurd (decide_eq_true hs) hnone
  | some p =>
    obtain ⟨hp, before, after, hsplit, hbefore⟩ := List.find?_eq_some_iff_append.mp hfind
    refine ⟨p, of_decide_eq_true hp, fun t ht hlt => ?_⟩
    have horder := Sprite.pairwise_squares (m.readIndex n)
    rw [hsplit, List.pairwise_append, List.pairwise_cons] at horder
    have hmem := mem_squares_readIndex.mpr ht.1
    rw [hsplit, List.mem_append, List.mem_cons] at hmem
    rcases hmem with hmem | rfl | hmem
    · have hclear := hbefore t hmem
      simp [ht] at hclear
    · exact Square.Before.irrefl t hlt
    · exact (horder.2.1.1 t hmem).asymm hlt

/-- A drawing changes nothing but the display, VF and the program counter. -/
theorem after_draw (m : Machine) (x y n : Nibble) :
    m.after (.draw x y n) = { m with
      display := (m.after (.draw x y n)).display
      regs := m.regs.set flag (m.after (.draw x y n)).regs[flag]
      pc := m.pc + 2 } := by
  have hregs : (m.after (.draw x y n)).regs =
      m.regs.set flag (m.after (.draw x y n)).regs[flag] := by
    apply Registers.ext
    intro z
    rw [Registers.getElem_set]
    split
    · next hz => rw [hz]
    · next hz =>
      have hcanvas := (Canvas.precedes_foldl (x := x) (y := y) m.flag_canvas_le_one
        (squares (m.readIndex n))).other z hz
      exact hcanvas.trans (m.regs.getElem_set_of_ne hz 0)
  rw [← hregs]
  rfl

/-- VF is cleared before a drawing, so what it was does not matter. -/
theorem execute_draw_of_flag (m : Machine) (x y n : Nibble) (byte : UInt8)
    (h : m.index.toNat + n.val ≤ Memory.size) :
    { m with regs := m.regs.set flag byte }.execute (.draw x y n) = m.execute (.draw x y n) := by
  have hcanvas :
      { m with regs := m.regs.set flag byte }.canvasAfter x y n = m.canvasAfter x y n := by
    show List.foldl _ (Canvas.mk m.display ((m.regs.set flag byte).set flag 0)) _ = _
    rw [Registers.set_set]
    rfl
  rw [execute_draw h, execute_draw (m := { m with regs := m.regs.set flag byte }) h]
  simp only [after, displayAfter, regsAfter, hcanvas]
  rfl

/-- A sprite that VF does not place lies where Vx and Vy say. -/
theorem draw_of_still {m : Machine} {x y n : Nibble} (hx : x ≠ flag) (hy : y ≠ flag)
    (h : m.index.toNat + n.val ≤ Memory.size) :
    let place := Square.cellAt m.regs[x].toNat m.regs[y].toNat
    let next := m.after (.draw x y n)
    m.display.Overlaid (m.Shows n) place next.display ∧
      (next.regs[flag] = 1 ↔ ∃ s, m.Shows n s ∧ m.display.Hit place s) ∧
      (next.regs[flag] = 0 ↔ ¬ ∃ s, m.Shows n s ∧ m.display.Hit place s) := by
  have hplace : ∀ vf, m.cellWith x y vf = Square.cellAt m.regs[x].toNat m.regs[y].toNat :=
    cellWith_of_ne hx hy
  intro place next
  rw [show place = m.cellWith x y 0 from (hplace 0).symm]
  by_cases hhit : ∃ s, m.Hits x y n s
  · obtain ⟨p, hp, hfirst⟩ := exists_first_hit hhit
    obtain ⟨hdisplay, hflag⟩ := draw_of_hit h hp hfirst
    refine ⟨hdisplay.congr (fun _ => .rfl) fun s _ => ?_, ?_, ?_⟩
    · rw [hplace, hplace]
    · exact iff_of_true hflag hhit
    · rw [hflag]
      exact iff_of_false (by decide) (not_not_intro hhit)
  · obtain ⟨hdisplay, hflag⟩ := draw_of_clear h hhit
    refine ⟨hdisplay, ?_, iff_of_true hflag hhit⟩
    rw [hflag]
    exact iff_of_false (by decide) hhit

/-- What `Dxyn` does if its sprite lies in memory and VF gives neither coordinate: all squares of
the sprite are laid over the display at once. VF becomes 1 if a set square hits a lit cell, and else
0. Nothing else changes, but that the program counter moves on. -/
theorem overlay_law (m : Machine) (x y n : Nibble) (hx : x ≠ flag) (hy : y ≠ flag)
    (h : m.index.toNat + n.val ≤ Memory.size) :
    let place := Square.cellAt m.regs[x].toNat m.regs[y].toNat
    let next := (m.execute (.draw x y n)).2
    (m.execute (.draw x y n)).1 = .ok .ran ∧
    (m.paused = false → m.WordAtPc (Instruction.registerWord 0xD x y n) →
      m.step = m.execute (.draw x y n) ∧ next.pc.toNat = m.pc.toNat + 2) ∧
    (∀ s, (place s).1.val = (m.regs[y].toNat + s.row) % 32 ∧
      (place s).2.val = (m.regs[x].toNat + s.col) % 64) ∧
    m.display.Overlaid (m.Shows n) place next.display ∧
    (next.regs[flag] = 1 ↔ ∃ s, m.Shows n s ∧ m.display.Hit place s) ∧
    (next.regs[flag] = 0 ↔ ¬ ∃ s, m.Shows n s ∧ m.display.Hit place s) ∧
    next = { m with
      display := next.display, regs := m.regs.set flag next.regs[flag], pc := m.pc + 2 } := by
  intro place next
  have hexecute := execute_draw (x := x) (y := y) h
  have hnext : next = m.after (.draw x y n) := congrArg Prod.snd hexecute
  obtain ⟨hdisplay, hraised, hcleared⟩ := draw_of_still hx hy h
  rw [hnext]
  refine ⟨by rw [hexecute], fun hp hw => ⟨step_draw h hp hw, ?_⟩, fun _ => ⟨rfl, rfl⟩, hdisplay,
    hraised, hcleared, after_draw m x y n⟩
  have := (wordAtPc_of_fetch (fetch_of_wordAtPc hw)).2
  exact toNat_pcPast (by omega) false

/-- `D012` draws the upper two rows of the glyph of 0 in the lower right corner. They go on at the
left edge and at the upper edge, and there the second row puts out a cell. -/
theorem overlay_law_wrapped :
    let m := { boot [0xD0, 0x12] minSpeed { key := .ofSeed 0 } with
      regs := Registers.set (Registers.set (Vector.replicate 16 0) 0 62) 1 31
      display := Display.blank.set 0 1 true }
    m.paused = false ∧ m.step.1 = .ok .ran ∧ m.step.2.display.isLit (31, 1) = true ∧
      m.step.2.display.isLit (0, 1) = false ∧ m.step.2.display.isLit (0, 2) = false ∧
      m.step.2.regs[flag] = 1 := by
  intro m
  have hw : m.WordAtPc (Instruction.registerWord 0xD 0 1 2) :=
    wordAtPc_of_image 0xD0 0x12 [] rfl rfl (by decide)
  obtain ⟨hran, hstep, _, hdisplay, hraised, _⟩ :=
    overlay_law m 0 1 2 (by decide) (by decide) (by decide)
  have hx : m.regs[(0 : Nibble)].toNat = 62 := by decide +kernel
  have hy : m.regs[(1 : Nibble)].toNat = 31 := by decide +kernel
  rw [hx, hy] at hdisplay hraised
  have hbytes : m.memory[0]? = some 0xF0 ∧ m.memory[1]? = some 0x90 := by decide +kernel
  have hupper : m.Shows 2 ⟨0, 3, true⟩ := ⟨by decide, 0xF0, hbytes.1, by decide, by decide⟩
  have hlower : m.Shows 2 ⟨1, 3, true⟩ := ⟨by decide, 0x90, hbytes.2, by decide, by decide⟩
  have hgap : m.Shows 2 ⟨1, 4, false⟩ := ⟨by decide, 0x90, hbytes.2, by decide, by decide⟩
  rw [(hstep rfl hw).1]
  refine ⟨rfl, hran, ?_, ?_, ?_, ?_⟩
  · exact (hdisplay.covered _ hupper).trans (by decide +kernel)
  · exact (hdisplay.covered _ hlower).trans (by decide +kernel)
  · exact (hdisplay.covered _ hgap).trans (by decide +kernel)
  · exact hraised.mpr ⟨_, hlower, rfl, by decide +kernel⟩

/-- What `Dxyn` does if its sprite lies in memory, also at a place that VF gives. If no square hits
with VF read as 0, all are laid over the display at that place, and VF becomes 0. Else all up to and
including the first one that hits are laid there and all after it where VF read as 1 puts them, one
column further to the right or one row further down or both, and VF becomes 1. What VF was before
does not matter. -/
theorem phase_law (m : Machine) (x y n : Nibble) (h : m.index.toNat + n.val ≤ Memory.size) :
    let next := (m.execute (.draw x y n)).2
    (m.execute (.draw x y n)).1 = .ok .ran ∧
    (m.paused = false → m.WordAtPc (Instruction.registerWord 0xD x y n) →
      m.step = m.execute (.draw x y n)) ∧
    ((¬ ∃ s, m.Hits x y n s) →
      m.display.Overlaid (m.Shows n) (m.cellWith x y 0) next.display ∧ next.regs[flag] = 0) ∧
    (∀ p, m.Hits x y n p → (∀ s, m.Hits x y n s → ¬ s.Before p) →
      m.display.Overlaid (m.Shows n) (fun s => m.cellWith x y (if p.Before s then 1 else 0) s)
        next.display ∧ next.regs[flag] = 1) ∧
    ((∃ s, m.Hits x y n s) →
      ∃ p, m.Hits x y n p ∧ ∀ s, m.Hits x y n s → ¬ s.Before p) ∧
    (∀ s, m.cellWith x y 1 s = ((m.cellWith x y 0 s).1 + (if y = flag then 1 else 0),
      (m.cellWith x y 0 s).2 + (if x = flag then 1 else 0))) ∧
    (∀ byte, { m with regs := m.regs.set flag byte }.execute (.draw x y n) =
      m.execute (.draw x y n)) := by
  intro next
  have hexecute := execute_draw (x := x) (y := y) h
  have hnext : next = m.after (.draw x y n) := congrArg Prod.snd hexecute
  rw [hnext]
  exact ⟨by rw [hexecute], step_draw h, draw_of_clear h, fun p => draw_of_hit h, exists_first_hit,
    cellWith_one, fun byte => execute_draw_of_flag m x y n byte h⟩

/-- `DFF5` draws the glyph of 0 at (VF, VF), and its third square puts out a cell. The fourth one is
drawn a row further down and a column further to the right, whatever VF was before. -/
theorem phase_law_moving :
    let m := { boot [0xDF, 0xF5] minSpeed { key := .ofSeed 0 } with
      regs := Vector.replicate 16 7
      display := Display.blank.set 0 2 true }
    m.paused = false ∧ m.step.1 = .ok .ran ∧ m.step.2.display.isLit (0, 2) = false ∧
      m.step.2.display.isLit (1, 4) = true ∧ m.step.2.regs[flag] = 1 := by
  intro m
  have hw : m.WordAtPc (Instruction.registerWord 0xD 15 15 5) :=
    wordAtPc_of_image 0xDF 0xF5 [] rfl rfl (by decide)
  obtain ⟨hran, hstep, _, hphases, _⟩ := phase_law m 15 15 5 (by decide)
  have hbyte : m.memory[0]? = some 0xF0 := by decide +kernel
  have hthird : m.Shows 5 ⟨0, 2, true⟩ := ⟨by decide, 0xF0, hbyte, by decide, by decide⟩
  have hfourth : m.Shows 5 ⟨0, 3, true⟩ := ⟨by decide, 0xF0, hbyte, by decide, by decide⟩
  have hhit : m.Hits 15 15 5 ⟨0, 2, true⟩ := ⟨hthird, rfl, by decide +kernel⟩
  have hfirst : ∀ s, m.Hits 15 15 5 s → ¬ s.Before ⟨0, 2, true⟩ := by
    rintro ⟨row, col, lit⟩ ⟨_, _, hlit⟩ (hrow | ⟨rfl, hcol⟩)
    · exact absurd hrow (Nat.not_lt_zero row)
    · have hlt : col < 2 := hcol
      have hcols : col = 0 ∨ col = 1 := by omega
      rcases hcols with rfl | rfl <;> cases lit <;> exact absurd hlit (by decide +kernel)
  obtain ⟨hdisplay, hraised⟩ := hphases _ hhit hfirst
  rw [hstep rfl hw]
  refine ⟨rfl, hran, ?_, ?_, hraised⟩
  · exact (hdisplay.covered _ hthird).trans (by decide +kernel)
  · exact (hdisplay.covered _ hfourth).trans (by decide +kernel)

end Machine

end Chip8
