import Chip8.RangeError

/-!
# The display

A monochrome display of 32 rows of 64 cells, seen through `Display.get`. The only way to change
single cells is `Display.toggle`, which flips one and wraps around both edges. Its law is
`get_toggle`; `Display.plot` is the same with a byte of ink, of which the lowest bit counts.

As text the display has a line per row, with `#` for a lit cell and `.` for a dark one.
-/

namespace Chip8

namespace Display

abbrev width : Nat := 64

abbrev height : Nat := 32

end Display

/-- The cells of the display, row by row from the top; a lit cell is `true`. -/
structure Display where
  rows : Vector (Vector Bool Display.width) Display.height
deriving DecidableEq

namespace Display

def blank : Display := ⟨Vector.replicate height (Vector.replicate width false)⟩

def get (d : Display) (row : Fin height) (col : Fin width) : Bool := d.rows[row][col]

def set (d : Display) (row : Fin height) (col : Fin width) (lit : Bool) : Display :=
  ⟨d.rows.set row (d.rows[row].set col lit)⟩

@[simp] theorem get_blank (row : Fin height) (col : Fin width) : blank.get row col = false := by
  simp [blank, get]

theorem get_set (d : Display) (row r : Fin height) (col c : Fin width) (lit : Bool) :
    (d.set row col lit).get r c = if row = r ∧ col = c then lit else d.get r c := by
  simp only [get, set, Fin.getElem_fin, Vector.getElem_set]
  by_cases hr : row = r
  · subst hr
    by_cases hc : col = c
    · subst hc; simp
    · simp [hc, Fin.val_ne_iff.mpr hc]
  · simp [hr, Fin.val_ne_iff.mpr hr]

@[ext] theorem ext {d e : Display} (h : ∀ row col, d.get row col = e.get row col) : d = e := by
  obtain ⟨rows⟩ := d
  obtain ⟨rows'⟩ := e
  congr 1
  apply Vector.ext
  intro r hr
  apply Vector.ext
  intro c hc
  exact h ⟨r, hr⟩ ⟨c, hc⟩

/-! ## Drawing single cells -/

/-- The row of the vertical coordinate `y`. -/
def rowOf (y : Nat) : Fin height := Fin.ofNat height y

/-- The column of the horizontal coordinate `x`. -/
def colOf (x : Nat) : Fin width := Fin.ofNat width x

/-- Flips the cell at (`x`, `y`) if `on` holds, and tells whether that put out a lit cell. -/
def toggle (d : Display) (x y : Nat) (on : Bool) : Bool × Display :=
  let lit := d.get (rowOf y) (colOf x)
  (lit && on, d.set (rowOf y) (colOf x) (lit ^^ on))

/-- Flips the cell at (`x`, `y`) if `ink` is odd, and tells whether that put out a lit cell. -/
def plot (d : Display) (x y : Nat) (ink : UInt8) : Bool × Display :=
  d.toggle x y (ink % 2 == 1)

theorem fst_toggle (d : Display) (x y : Nat) (on : Bool) :
    (d.toggle x y on).1 = (d.get (rowOf y) (colOf x) && on) := rfl

theorem get_toggle (d : Display) (x y : Nat) (on : Bool) (r : Fin height) (c : Fin width) :
    (d.toggle x y on).2.get r c = (d.get r c ^^ (on && decide (rowOf y = r ∧ colOf x = c))) := by
  simp only [toggle, get_set]
  split
  · next h => obtain ⟨rfl, rfl⟩ := h; simp
  · next h => simp [h]

/-! ## Looking at the display -/

/-- Whether the cell in row `y` and column `x` is lit. The row is checked before the column. -/
def pixel (d : Display) (y x : Nat) : Except RangeError Bool :=
  if hy : y < height then
    if hx : x < width then .ok (d.get ⟨y, hy⟩ ⟨x, hx⟩)
    else .error (.outside width x)
  else .error (.outside height y)

def mark (lit : Bool) : Char := if lit then '#' else '.'

def lineOf (row : Vector Bool width) : List Char := row.toList.map mark ++ ['\n']

/-- The display as text, one line per row from the top. -/
def text (d : Display) : String := String.ofList (d.rows.toList.flatMap lineOf)

end Display

end Chip8
