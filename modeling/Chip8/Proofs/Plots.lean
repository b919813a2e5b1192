import Mathlib.Data.List.DropRight
import Mathlib.Data.Nat.Bits
import Chip8.Proofs.Sprites

/-!
# Histories of a display

A display on its own is plotted on and cleared. Of a history of such edits only parities are left: a
cell is lit if an odd number of plots flipped it since the display was last cleared
(`isLit_editAll`). A plot that finds its cell dark adds a lit cell, and one that finds it lit takes
one away, so the plots that put out a cell tell how many cells are lit (`card_lit_editAll`).

Both laws are shown for plots alone, over any display. A history from the blank display on comes
down to that, since a clear leaves nothing of what was before it (`exists_recent`).
-/

namespace Chip8.Display

/-! ## Edits -/

/-- What can be done to a display. -/
inductive Edit where
  | plot (x y : Nat) (ink : UInt8)
  | clear
deriving DecidableEq, Repr

namespace Edit

/-- The edit is a plot with odd ink. -/
def HasInk : Edit → Prop
  | plot _ _ ink => ink.toNat % 2 = 1
  | clear => False

/-- The edit is a plot with odd ink, and its coordinates come down to those of the cell. -/
def Flips (cell : Cell) : Edit → Prop
  | plot x y ink => y % 32 = cell.1.val ∧ x % 64 = cell.2.val ∧ ink.toNat % 2 = 1
  | clear => False

instance : (e : Edit) → Decidable e.HasInk
  | plot _ _ _ => inferInstanceAs (Decidable (_ = _))
  | clear => inferInstanceAs (Decidable False)

instance (cell : Cell) : (e : Edit) → Decidable (e.Flips cell)
  | plot _ _ _ => inferInstanceAs (Decidable (_ ∧ _ ∧ _))
  | clear => inferInstanceAs (Decidable False)

theorem flips_plot_iff {x y : Nat} {ink : UInt8} {cell : Cell} :
    (plot x y ink).Flips cell ↔ (rowOf y, colOf x) = cell ∧ ink.toNat % 2 = 1 := by
  rw [Flips, Prod.ext_iff, Fin.ext_iff, Fin.ext_iff, ← and_assoc]
  rfl

variable {e : Edit} {cell : Cell}

theorem Flips.ne_clear (h : e.Flips cell) : e ≠ clear := by
  rintro rfl
  exact h

theorem Flips.iff_eq (h : e.Flips cell) {other : Cell} : e.Flips other ↔ other = cell := by
  cases e with
  | clear => exact h.elim
  | plot x y ink =>
    obtain ⟨rfl, hodd⟩ := flips_plot_iff.mp h
    rw [flips_plot_iff, and_iff_left hodd, eq_comm]

theorem hasInk_iff : e.HasInk ↔ ∃ cell, e.Flips cell := by
  cases e with
  | clear => exact ⟨False.elim, fun ⟨_, h⟩ => h⟩
  | plot x y ink => exact ⟨fun h => ⟨_, flips_plot_iff.mpr ⟨rfl, h⟩⟩, fun ⟨_, h⟩ => h.2.2⟩

end Edit

/-- Carries out an edit, and tells whether it put out a lit cell. -/
def edit (d : Display) : Edit → Bool × Display
  | .plot x y ink => d.plot x y ink
  | .clear => (false, blank)

/-- The display after a list of edits, the first one first. -/
def editAll (d : Display) (edits : List Edit) : Display :=
  edits.foldl (fun d e => (d.edit e).2) d

/-- An edit that was carried out, and whether it put out a lit cell. -/
structure Entry where
  edit : Edit
  erased : Bool
deriving DecidableEq, Repr

/-- The edits as they are carried out. -/
def log (d : Display) : List Edit → List Entry
  | [] => []
  | e :: edits => ⟨e, (d.edit e).1⟩ :: log (d.edit e).2 edits

/-- The entries after the last clear. -/
def sinceClear (history : List Entry) : List Entry :=
  history.rtakeWhile fun e => e.edit ≠ .clear

theorem editAll_append (d : Display) (first second : List Edit) :
    d.editAll (first ++ second) = (d.editAll first).editAll second :=
  List.foldl_append

theorem log_append (d : Display) (first second : List Edit) :
    d.log (first ++ second) = d.log first ++ (d.editAll first).log second := by
  induction first generalizing d with
  | nil => rfl
  | cons e first ih =>
    rw [List.cons_append, log, log, ih]
    rfl

theorem map_edit_log (d : Display) (edits : List Edit) : (d.log edits).map Entry.edit = edits := by
  induction edits generalizing d with
  | nil => rfl
  | cons e edits ih => rw [log, List.map_cons, ih]

theorem countP_log (p : Edit → Bool) (d : Display) (edits : List Edit) :
    ((d.log edits).countP fun e => p e.edit) = edits.countP p := by
  conv_rhs => rw [← map_edit_log d edits, List.countP_map]
  rfl

/-- What a history leaves, is left by the plots since the last clear alone. -/
theorem exists_recent (edits : List Edit) :
    ∃ plots, .clear ∉ plots ∧ blank.editAll plots = blank.editAll edits ∧
      blank.log plots = sinceClear (blank.log edits) := by
  induction edits using List.reverseRecOn with
  | nil => exact ⟨[], List.not_mem_nil, rfl, rfl⟩
  | append_singleton edits e ih =>
    obtain ⟨plots, hplots, hdisplay, hlog⟩ := ih
    rw [editAll_append, log_append, log, log, sinceClear, List.rtakeWhile_concat]
    cases e with
    | clear => exact ⟨[], List.not_mem_nil, rfl, rfl⟩
    | plot x y ink =>
      refine ⟨plots ++ [.plot x y ink], ?_, ?_, ?_⟩
      · simpa using hplots
      · rw [editAll_append, hdisplay]
      · rw [log_append, hlog, hdisplay]
        rfl

/-! ## The parity of the flips -/

theorem odd_ink (ink : UInt8) : (ink % 2 == 1) = decide (ink.toNat % 2 = 1) := by
  rw [Bool.eq_iff_iff, beq_iff_eq, decide_eq_true_iff, ← UInt8.toNat_inj, UInt8.toNat_mod]
  rfl

theorem isLit_edit (d : Display) {e : Edit} (h : e ≠ .clear) (cell : Cell) :
    (d.edit e).2.isLit cell = (d.isLit cell ^^ decide (e.Flips cell)) := by
  cases e with
  | clear => exact absurd rfl h
  | plot x y ink =>
    show (d.toggle x y (ink % 2 == 1)).2.get cell.1 cell.2 = _
    rw [get_toggle, odd_ink, ← Bool.decide_and]
    congr 1
    rw [decide_eq_decide, Edit.flips_plot_iff, Prod.ext_iff, and_comm]

theorem fst_edit_iff (d : Display) (e : Edit) :
    (d.edit e).1 = true ↔ ∃ cell, e.Flips cell ∧ d.isLit cell = true := by
  cases e with
  | clear => exact ⟨nofun, fun ⟨_, hflips, _⟩ => hflips.elim⟩
  | plot x y ink =>
    show (d.toggle x y (ink % 2 == 1)).1 = true ↔ _
    rw [fst_toggle, odd_ink, Bool.and_eq_true, decide_eq_true_iff]
    constructor
    · rintro ⟨hlit, hodd⟩
      exact ⟨_, Edit.flips_plot_iff.mpr ⟨rfl, hodd⟩, hlit⟩
    · rintro ⟨_, hflips, hlit⟩
      obtain ⟨rfl, hodd⟩ := Edit.flips_plot_iff.mp hflips
      exact ⟨hlit, hodd⟩

theorem isLit_plots {plots : List Edit} (h : .clear ∉ plots) (d : Display) (cell : Cell) :
    (d.editAll plots).isLit cell =
      (d.isLit cell ^^ (plots.countP fun e => e.Flips cell).bodd) := by
  induction plots generalizing d with
  | nil => rw [List.countP_nil, Nat.bodd_zero, Bool.xor_false]; rfl
  | cons e plots ih =>
    obtain ⟨hne, hplots⟩ := List.ne_and_not_mem_of_not_mem_cons h
    show ((d.edit e).2.editAll plots).isLit cell = _
    rw [ih hplots, isLit_edit d hne.symm, List.countP_cons, Nat.bodd_add, Bool.xor_assoc]
    congr 1
    by_cases hflips : e.Flips cell <;> simp [hflips]

/-- The cells that an odd number of plots flipped since the last clear are lit. -/
theorem isLit_editAll (edits : List Edit) (cell : Cell) :
    (blank.editAll edits).isLit cell =
      ((sinceClear (blank.log edits)).countP fun e => e.edit.Flips cell).bodd := by
  obtain ⟨plots, hplots, hdisplay, hlog⟩ := exists_recent edits
  have hblank : blank.isLit cell = false := get_blank cell.1 cell.2
  rw [← hdisplay, ← hlog, isLit_plots hplots, hblank, Bool.false_xor,
    countP_log fun e => decide (e.Flips cell)]

/-- The order of plots does not matter. -/
theorem editAll_perm {order plots : List Edit} (hperm : order.Perm plots) (h : .clear ∉ plots)
    (d : Display) : d.editAll order = d.editAll plots := by
  apply Display.ext
  intro row col
  have horder : .clear ∉ order := fun hmem => h (hperm.mem_iff.mp hmem)
  show (d.editAll order).isLit (row, col) = (d.editAll plots).isLit (row, col)
  rw [isLit_plots horder, isLit_plots h, hperm.countP_eq]

/-! ## The number of lit cells -/

/-- The cells that are lit. -/
def lit (d : Display) : Finset Cell := Finset.univ.filter fun cell => d.isLit cell

theorem mem_lit {d : Display} {cell : Cell} : cell ∈ d.lit ↔ d.isLit cell = true :=
  Finset.mem_filter_univ cell

theorem mem_lit_edit (d : Display) {e : Edit} (h : e ≠ .clear) (cell : Cell) :
    cell ∈ (d.edit e).2.lit ↔ (cell ∈ d.lit ↔ ¬ e.Flips cell) := by
  rw [mem_lit, mem_lit, isLit_edit d h]
  by_cases hflips : e.Flips cell <;> simp [hflips]

section

variable {d : Display} {e : Edit} {cell : Cell}

theorem lit_edit_of_lit (hflips : e.Flips cell) (hlit : cell ∈ d.lit) :
    (d.edit e).2.lit = d.lit.erase cell := by
  ext other
  rw [d.mem_lit_edit hflips.ne_clear, hflips.iff_eq, Finset.mem_erase]
  by_cases hother : other = cell
  · subst hother
    simp [hlit]
  · simp [hother]

theorem lit_edit_of_dark (hflips : e.Flips cell) (hdark : cell ∉ d.lit) :
    (d.edit e).2.lit = insert cell d.lit := by
  ext other
  rw [d.mem_lit_edit hflips.ne_clear, hflips.iff_eq, Finset.mem_insert]
  by_cases hother : other = cell
  · subst hother
    simp [hdark]
  · simp [hother]

/-- A plot with odd ink adds a lit cell or puts one out. -/
theorem card_lit_edit (h : e ≠ .clear) :
    (d.edit e).2.lit.card + 2 * (if (d.edit e).1 then 1 else 0) =
      d.lit.card + if e.HasInk then 1 else 0 := by
  have herased := d.fst_edit_iff e
  by_cases hink : e.HasInk
  · obtain ⟨cell, hflips⟩ := Edit.hasInk_iff.mp hink
    simp only [hflips.iff_eq, exists_eq_left, ← mem_lit] at herased
    rw [if_pos hink]
    by_cases hlit : cell ∈ d.lit
    · rw [if_pos (herased.mpr hlit), lit_edit_of_lit hflips hlit]
      have := Finset.card_erase_add_one hlit
      omega
    · rw [if_neg (herased.not.mpr hlit), lit_edit_of_dark hflips hlit,
        Finset.card_insert_of_notMem hlit]
  · have hnone : ∀ cell, ¬ e.Flips cell :=
      fun cell hflips => hink (Edit.hasInk_iff.mpr ⟨cell, hflips⟩)
    have hkept : (d.edit e).2.lit = d.lit := by
      ext cell
      rw [d.mem_lit_edit h, iff_true_right (hnone cell)]
    rw [if_neg hink, hkept, if_neg]
    rw [herased]
    exact fun ⟨cell, hflips, _⟩ => hnone cell hflips

end

theorem card_lit_plots {plots : List Edit} (h : .clear ∉ plots) (d : Display) :
    (d.editAll plots).lit.card + 2 * (d.log plots).countP Entry.erased =
      d.lit.card + plots.countP fun e => e.HasInk := by
  induction plots generalizing d with
  | nil => rfl
  | cons e plots ih =>
    obtain ⟨hne, hplots⟩ := List.ne_and_not_mem_of_not_mem_cons h
    have hfirst := card_lit_edit (d := d) hne.symm
    have hlater := ih hplots (d.edit e).2
    rw [log, List.countP_cons, List.countP_cons]
    show ((d.edit e).2.editAll plots).lit.card + _ = _
    simp only [decide_eq_true_iff]
    omega

/-- Each plot with odd ink since the last clear added a lit cell, or put one out instead. -/
theorem card_lit_editAll (edits : List Edit) :
    (blank.editAll edits).lit.card +
        2 * (sinceClear (blank.log edits)).countP Entry.erased =
      (sinceClear (blank.log edits)).countP fun e => e.edit.HasInk := by
  obtain ⟨plots, hplots, hdisplay, hlog⟩ := exists_recent edits
  have hblank : blank.lit = ∅ := by
    ext cell
    rw [mem_lit, isLit, get_blank]
    simp
  rw [← hdisplay, ← hlog, card_lit_plots hplots, hblank, Finset.card_empty, Nat.zero_add,
    countP_log fun e => decide e.HasInk]

/-- What a history of a blank display leaves. A cell is lit or dark by the parity of the plots with
odd ink that fell on it since the last clear, however far beyond the edges they were aimed, and a
plot puts a cell out if its ink is odd and that parity is too. So the display is blank if all
parities are even, plots may be carried out in any order, and the lit cells are as many as the plots
with odd ink, less two for each one that put a cell out. -/
theorem plots_law (edits : List Edit) :
    let d := blank.editAll edits
    let recent := sinceClear (blank.log edits)
    let parity (cell : Cell) := (recent.countP fun e => e.edit.Flips cell) % 2
    (∀ cell, (d.isLit cell).toNat = parity cell) ∧
    (∀ (x y : Nat) (ink : UInt8) (cell : Cell), y % 32 = cell.1.val → x % 64 = cell.2.val →
      ((d.plot x y ink).1 = true ↔ ink.toNat % 2 = 1 ∧ parity cell = 1)) ∧
    (d = blank ↔ ∀ cell, parity cell = 0) ∧
    (∀ before plots order behind : List Edit, edits = before ++ plots ++ behind →
      .clear ∉ plots → order.Perm plots → blank.editAll (before ++ order ++ behind) = d) ∧
    d.lit.card + 2 * recent.countP Entry.erased = recent.countP fun e => e.edit.HasInk := by
  intro d recent parity
  have hparity : ∀ cell, (d.isLit cell).toNat = parity cell := fun cell => by
    rw [isLit_editAll, ← Nat.mod_two_of_bodd]
  refine ⟨hparity, fun x y ink cell hrow hcol => ?_, ?_, ?_, card_lit_editAll edits⟩
  · rw [← hparity, Bool.toNat_eq_one]
    refine (d.fst_edit_iff (.plot x y ink)).trans ⟨?_, fun ⟨hodd, hlit⟩ => ?_⟩
    · rintro ⟨other, hflips, hlit⟩
      have hodd := hflips.2.2
      obtain rfl : cell = other := hflips.iff_eq.mp ⟨hrow, hcol, hodd⟩
      exact ⟨hodd, hlit⟩
    · exact ⟨cell, ⟨hrow, hcol, hodd⟩, hlit⟩
  · constructor
    · intro hblank cell
      rw [← hparity, hblank, Bool.toNat_eq_zero]
      exact get_blank cell.1 cell.2
    · intro heven
      apply Display.ext
      intro row col
      have hdark : d.isLit (row, col) = false := by
        rw [← Bool.toNat_eq_zero, hparity, heven]
      rw [get_blank]
      exact hdark
  · intro before plots order behind hedits hplots hperm
    show _ = blank.editAll edits
    rw [hedits]
    simp only [editAll_append, editAll_perm hperm hplots]

/-- Before the clear a cell is lit that the clear puts out. After it two plots meet in one cell, the
second one from behind the edges, a plot with even ink does nothing, and one cell stays lit. -/
theorem plots_law_aliased :
    let plots : List Edit := [.plot 2 1 1, .plot 66 33 255, .plot 3 1 4, .plot 63 31 7]
    let order : List Edit := [.plot 66 33 255, .plot 2 1 1, .plot 3 1 4, .plot 63 31 7]
    let edits := [.plot 9 9 1, .clear] ++ plots
    let d := blank.editAll edits
    d.isLit (1, 2) = false ∧ d.isLit (31, 63) = true ∧ (d.plot 127 31 3).1 = true ∧ d ≠ blank ∧
      blank.editAll ([.plot 9 9 1, .clear] ++ order) = d ∧ d.lit.card = 1 := by
  intro plots order edits d
  obtain ⟨hlit, hput, hblank, horder, hcard⟩ := plots_law edits
  have hswap : order.Perm plots := .swap _ _ _
  refine ⟨?_, ?_, ?_, ?_, ?_, ?_⟩
  · exact Bool.toNat_eq_zero.mp ((hlit (1, 2)).trans (by decide))
  · exact Bool.toNat_eq_one.mp ((hlit (31, 63)).trans (by decide))
  · exact (hput 127 31 3 (31, 63) rfl rfl).mpr ⟨rfl, by decide⟩
  · rw [ne_eq, hblank]
    exact fun heven => absurd (heven (31, 63)) (by decide)
  · have := horder [.plot 9 9 1, .clear] plots order [] (List.append_nil _).symm (by decide) hswap
    rwa [List.append_nil] at this
  · have herased : (sinceClear (blank.log edits)).countP Entry.erased = 1 := by decide +kernel
    have hink : ((sinceClear (blank.log edits)).countP fun e => e.edit.HasInk) = 3 := by
      decide +kernel
    rw [herased, hink] at hcard
    exact Nat.add_right_cancel hcard

end Chip8.Display
