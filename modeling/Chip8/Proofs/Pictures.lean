import Chip8.Display

/-!
# The text of a display

The text is a picture of the display. Each row is a line of its own, so a cell stands at a fixed
place (`getElem?_text`), and the picture can be read: `Display.ofText?` reads mark by mark and line
by line and knows nothing of places. It reads the texts of displays and no others
(`ofText?_eq_some_iff`).

Reading undoes writing on every level, for a mark, a line and the whole text. What is said on each
of them is `Reads`, and `reads_many` carries it from one value to many.
-/

namespace Chip8

/-! ## Reading what was written -/

section

variable {α : Type}

/-- What `read` takes off the front of a text is what `write` puts there, and nothing else. -/
def Reads (read : List Char → Option (α × List Char)) (write : α → List Char) : Prop :=
  ∀ cs a rest, read cs = some (a, rest) ↔ cs = write a ++ rest

/-- Reads `n` values, one after the other. -/
def readMany (read : List Char → Option (α × List Char)) :
    (n : Nat) → List Char → Option (Vector α n × List Char)
  | 0, cs => some (#v[], cs)
  | n + 1, cs => do
    let (v, cs) ← readMany read n cs
    let (a, cs) ← read cs
    return (v.push a, cs)

variable {read : List Char → Option (α × List Char)} {write : α → List Char}

theorem readMany_succ_eq_some_iff {n : Nat} {cs rest : List Char} {v : Vector α n} {a : α} :
    readMany read (n + 1) cs = some (v.push a, rest) ↔
      ∃ between, readMany read n cs = some (v, between) ∧ read between = some (a, rest) := by
  simp only [readMany, bind, Option.bind_eq_some_iff]
  constructor
  · rintro ⟨⟨w, between⟩, hw, ⟨b, rest'⟩, hb, heq⟩
    obtain ⟨hpush, rfl⟩ := Prod.mk.inj (Option.some.inj heq)
    obtain ⟨rfl, rfl⟩ := Vector.push_eq_push.mp hpush
    exact ⟨between, hw, hb⟩
  · rintro ⟨between, hv, ha⟩
    exact ⟨(v, between), hv, (a, rest), ha, rfl⟩

theorem reads_many (h : Reads read write) (n : Nat) :
    Reads (readMany read n) fun v => v.toList.flatMap write := by
  induction n with
  | zero =>
    intro cs v rest
    obtain rfl : v = #v[] := Vector.eq_empty
    rw [readMany, Option.some.injEq, Prod.mk.injEq]
    simp
  | succ n ih =>
    intro cs v rest
    obtain ⟨v, a, rfl⟩ := v.exists_push
    simp only [readMany_succ_eq_some_iff, ih cs v, h _ a rest, exists_eq_right, Vector.toList_push,
      List.flatMap_append, List.flatMap_singleton, List.append_assoc]

theorem getElem?_flatMap {β : Type} {f : α → List β} {k : Nat} (hlength : ∀ a, (f a).length = k)
    (l : List α) (i : Nat) {j : Nat} (hj : j < k) :
    (l.flatMap f)[k * i + j]? = l[i]?.bind fun a => (f a)[j]? := by
  induction l generalizing i with
  | nil => rfl
  | cons a l ih =>
    rw [List.flatMap_cons]
    cases i with
    | zero =>
      rw [Nat.mul_zero, Nat.zero_add, List.getElem?_append_left (by rw [hlength]; exact hj)]
      rfl
    | succ i =>
      rw [List.getElem?_append_right (by rw [hlength, Nat.mul_succ]; omega), hlength,
        Nat.mul_succ, List.getElem?_cons_succ, ← ih]
      congr 1
      omega

end

namespace Display

/-! ## Reading a picture -/

def readMark : List Char → Option (Bool × List Char)
  | '#' :: cs => some (true, cs)
  | '.' :: cs => some (false, cs)
  | _ => none

def readLine (cs : List Char) : Option (Vector Bool width × List Char) :=
  match readMany readMark width cs with
  | some (row, '\n' :: cs) => some (row, cs)
  | _ => none

/-- The display that a text is a picture of. -/
def ofText? (text : String) : Option Display :=
  match readMany readLine height text.toList with
  | some (rows, []) => some ⟨rows⟩
  | _ => none

theorem reads_mark : Reads readMark fun lit => [mark lit] := by
  intro cs lit rest
  unfold readMark
  split
  · cases lit <;> simp [mark]
  · cases lit <;> simp [mark]
  · next hlit hdark =>
    refine iff_of_false nofun ?_
    rintro rfl
    cases lit with
    | true => exact hlit rest rfl
    | false => exact hdark rest rfl

theorem reads_line : Reads readLine lineOf := by
  intro cs row rest
  have hmarks := reads_many reads_mark width cs row
  rw [lineOf, List.map_eq_flatMap, List.append_assoc, List.singleton_append, ← hmarks]
  unfold readLine
  split
  · next heq => simp [heq]
  · next hnone =>
    refine iff_of_false nofun ?_
    exact hnone row rest

theorem ofText?_eq_some_iff {text : String} {d : Display} :
    ofText? text = some d ↔ text = d.text := by
  obtain ⟨rows⟩ := d
  have hlines := reads_many reads_line height text.toList rows []
  rw [Display.text, ← String.toList_inj, String.toList_ofList,
    ← List.append_nil (List.flatMap _ _), ← hlines]
  unfold ofText?
  split
  · next heq => simp [heq]
  · next hnone => exact iff_of_false nofun (hnone rows)

/-! ## The places of the marks -/

theorem length_lineOf (row : Vector Bool width) : (lineOf row).length = 65 := by
  rw [lineOf, List.length_append, List.length_map, Vector.length_toList, List.length_singleton]

theorem getElem?_lineOf (row : Vector Bool width) {col : Nat} (hcol : col < width) :
    (lineOf row)[col]? = some (mark row[col]) := by
  rw [lineOf, List.getElem?_append_left (by simpa using hcol), List.getElem?_map,
    Vector.getElem?_toList, Vector.getElem?_eq_getElem hcol, Option.map_some]

theorem getElem?_lineOf_width (row : Vector Bool width) : (lineOf row)[64]? = some '\n' := by
  rw [lineOf, List.getElem?_append_right (by simp)]
  simp

/-- Each row is a line of 65 characters. -/
theorem getElem?_text (d : Display) (row : Fin height) {x : Nat} (hx : x < 65) :
    d.text.toList[65 * row.val + x]? = (lineOf d.rows[row])[x]? := by
  rw [text, String.toList_ofList, getElem?_flatMap length_lineOf _ _ hx, Vector.getElem?_toList,
    Vector.getElem?_eq_getElem row.isLt]
  rfl

theorem length_text (d : Display) : d.text.length = 32 * 65 := by
  rw [text, String.length_ofList, List.length_flatMap]
  simp only [length_lineOf, List.map_const', Vector.length_toList, List.sum_replicate_nat]

/-- The text of a display has a line of 64 marks for each row, from the top and from the left, `#`
for a lit cell and `.` for a dark one. What is read from it is the display again, and that is read
from no other text. So displays with one text are one display. -/
theorem text_law (d : Display) :
    d.text.length = 32 * 65 ∧
    (∀ y x, y < 32 → x < 64 → ∃ lit, d.pixel y x = .ok lit ∧
      d.text.toList[65 * y + x]? = some (if lit then '#' else '.')) ∧
    (∀ y, y < 32 → d.text.toList[65 * y + 64]? = some '\n') ∧
    (∀ text, ofText? text = some d ↔ text = d.text) ∧
    ∀ e : Display, e.text = d.text ↔ e = d := by
  refine ⟨d.length_text, fun y x hy hx => ?_, fun y hy => ?_, fun _ => ofText?_eq_some_iff,
    fun e => ⟨fun h => ?_, congrArg Display.text⟩⟩
  · refine ⟨d.get ⟨y, hy⟩ ⟨x, hx⟩, ?_, ?_⟩
    · rw [pixel, dif_pos hy, dif_pos hx]
    · rw [d.getElem?_text ⟨y, hy⟩ (by omega)]
      exact getElem?_lineOf _ hx
  · rw [d.getElem?_text ⟨y, hy⟩ (by omega), getElem?_lineOf_width]
  · have hread : ofText? e.text = some d := ofText?_eq_some_iff.mpr h
    rw [ofText?_eq_some_iff.mpr rfl] at hread
    exact Option.some.inj hread

/-- A lit cell in the lower right corner and a dark one beside it. -/
theorem text_law_corner :
    let d := Display.blank.set 31 63 true
    d.text.toList[65 * 31 + 63]? = some '#' ∧ d.text.toList[65 * 31 + 62]? = some '.' ∧
      d.text.toList[65 * 31 + 64]? = some '\n' ∧ ofText? d.text = some d ∧
      Display.blank.text ≠ d.text := by
  intro d
  obtain ⟨_, hmarks, hends, hread, hsame⟩ := text_law d
  obtain ⟨lit, hlit, hmark⟩ := hmarks 31 63 (by decide) (by decide)
  obtain ⟨dark, hdark, hmark'⟩ := hmarks 31 62 (by decide) (by decide)
  obtain rfl : d.get 31 63 = lit := Except.ok.inj hlit
  obtain rfl : d.get 31 62 = dark := Except.ok.inj hdark
  have hcells : d.get 31 63 = true ∧ d.get 31 62 = false := by decide +kernel
  rw [hcells.1] at hmark
  rw [hcells.2] at hmark'
  refine ⟨hmark, hmark', hends 31 (by decide), (hread d.text).mpr rfl, ?_⟩
  rw [ne_eq, hsame]
  decide +kernel

end Display

end Chip8
