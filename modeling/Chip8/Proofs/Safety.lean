import Chip8.Proofs.Bounds
import Chip8.Proofs.Checked

/-!
# No check fails

The checked machine and the machine give the same results: whatever programs are loaded and
whatever a host does, no operation traps (`no_trap`). All that has to be excluded are histories of
so many frames that they cannot be counted in 64 bits.

Most checks are passed by every machine, since an access with a number that a program may choose
stands behind a test of that number. `execute_eq` says so of the instructions. The count of the
frames since the last tick is safe only because it is bounded throughout.
-/

namespace Chip8.Checked

/-! ## Cells and numbers -/

section primitives

variable {α β : Type} {n : Nat}

@[simp] theorem ok_bind (a : α) (f : α → Checked β) : (Except.ok a >>= f : Checked β) = f a := rfl

@[simp] theorem pure_eq (a : α) : (pure a : Checked α) = .ok a := rfl

theorem cell_of_lt (v : Vector α n) {i : Nat} (h : i < n) : cell v i = .ok v[i] := dif_pos h

@[simp] theorem cell_fin (v : Vector α n) (i : Fin n) : cell v i = .ok v[i] := cell_of_lt v i.isLt

theorem setCell_of_lt (v : Vector α n) {i : Nat} (h : i < n) (a : α) :
    setCell v i a = .ok (v.set i a) := dif_pos h

@[simp] theorem setCell_fin (v : Vector α n) (i : Fin n) (a : α) :
    setCell v i a = .ok (v.set i a) := setCell_of_lt v i.isLt a

theorem setCell_eq_setIfInBounds (v : Vector α n) {i : Nat} (h : i < n) (a : α) :
    setCell v i a = .ok (v.setIfInBounds i a) := by
  rw [setCell_of_lt v h, Except.ok.injEq]
  apply Vector.ext
  intro k hk
  rw [Vector.getElem_set, Vector.getElem_setIfInBounds]

theorem slice_eq (v : Vector α n) {start stop : Nat} (hle : start ≤ stop) (hstop : stop ≤ n) :
    slice v start stop = .ok (readRun v start (stop - start)) := if_pos ⟨hle, hstop⟩

theorem copySlice_eq (v : Vector α n) {start stop : Nat} {values : List α} (hle : start ≤ stop)
    (hstop : stop ≤ n) (hlength : values.length = stop - start) :
    copySlice v start stop values = .ok (writeRun v start values) := by
  rw [copySlice, if_pos ⟨hle, hstop⟩, if_pos hlength]

theorem sum_eq {width a b : Nat} (h : a + b < 2 ^ width) : sum width a b = .ok (a + b) := if_pos h

theorem difference_eq {a b : Nat} (h : b ≤ a) : difference a b = .ok (a - b) := if_pos h

theorem product_eq {width a b : Nat} (h : a * b < 2 ^ width) : product width a b = .ok (a * b) :=
  if_pos h

theorem shiftRight_eq {width a distance : Nat} (h : distance < width) :
    shiftRight width a distance = .ok (a >>> distance) := if_pos h

@[simp] theorem nibble_fin (k : Nibble) : nibble k = .ok k := by
  rw [nibble, Nibble.ofNat?_eq_some_iff.mpr rfl]

/-- The bit of a key, shifted to its place, is a power of two. -/
theorem exists_mask {key : Nat} (h : key < 16) :
    ∃ mask, shiftLeft 16 1 key = .ok mask ∧ BitVec.ofNat 16 mask = BitVec.twoPow 16 key := by
  refine ⟨_, if_pos h, ?_⟩
  apply BitVec.eq_of_toNat_eq
  rw [BitVec.toNat_twoPow, BitVec.toNat_ofNat, Nat.one_shiftLeft, Nat.mod_mod]

/-- A fold of which no step traps. -/
theorem foldlM_eq {f : β → α → Checked β} {g : β → α → β} {as : List α}
    (h : ∀ a ∈ as, ∀ b, f b a = .ok (g b a)) (b : β) : as.foldlM f b = .ok (as.foldl g b) := by
  induction as generalizing b with
  | nil => rfl
  | cons a as ih =>
    rw [List.foldlM_cons, h a List.mem_cons_self, ok_bind, List.foldl_cons]
    exact ih (fun a ha => h a (List.mem_cons_of_mem _ ha)) _

end primitives

/-! ## Parts of the machine -/

theorem cell_reg (v : Registers) (x : Nibble) : cell v x = .ok v[x] := cell_fin v x

theorem setCell_reg (v : Registers) (x : Nibble) (byte : UInt8) :
    setCell v x byte = .ok (v.set x byte) := setCell_fin v x byte

theorem setCell_flag (v : Registers) (byte : UInt8) :
    setCell v 0xF byte = .ok (v.set flag byte) := setCell_reg v flag byte

/-- The hexadecimal digit at bit `k`, cut out by a mask. -/
theorem and_shiftRight_digit (a k : Nat) : (a &&& 15 <<< k) >>> k = a / 2 ^ k % 16 := by
  rw [Nat.shiftRight_and_distrib, Nat.shiftLeft_shiftRight, Nat.shiftRight_eq_div_pow]
  exact Nat.and_two_pow_sub_one_eq_mod _ 4

theorem digits_eq (w : UInt16) :
    digits w = .ok (Instruction.xOf w, Instruction.yOf w, Instruction.nOf w) := by
  have hx : ((w &&& 0x0F00) >>> 8).toNat = (Instruction.xOf w).val :=
    and_shiftRight_digit w.toNat 8
  have hy : ((w &&& 0x00F0) >>> 4).toNat = (Instruction.yOf w).val :=
    and_shiftRight_digit w.toNat 4
  have hn : (w &&& 0x000F).toNat = (Instruction.nOf w).val :=
    Nat.and_two_pow_sub_one_eq_mod w.toNat 4
  rw [digits, hx, hy, hn]
  simp only [nibble_fin, ok_bind, pure_eq]

theorem decode_eq (w : UInt16) : decode w = .ok (.ofWord w) := by
  rw [decode, digits_eq]
  rfl

theorem push_eq {s next : CallStack} {address : UInt16} (h : s.push? address = some next) :
    push s address = .ok next := by
  unfold CallStack.push? at h
  unfold push
  split at h
  · next hlt =>
    cases h
    have hsum : s.depth + 1 < 2 ^ sizeWidth := Nat.lt_of_le_of_lt hlt (by decide)
    rw [dif_pos hlt, sum_eq hsum]
    rfl
  · cases h

theorem pop_eq {s rest : CallStack} {address : UInt16} (h : s.pop? = some (address, rest)) :
    pop s = .ok (address, rest) := by
  have hle := s.depth_le
  unfold CallStack.pop? at h
  split at h
  · next hpos =>
    cases h
    have hdepth : s.depth - 1 < CallStack.capacity := by omega
    rw [pop, difference_eq (by omega), ok_bind, cell_of_lt s.slots hdepth, ok_bind,
      dif_pos (by omega)]
    rfl
  · cases h

theorem isHeld_eq (k : Keypad) (key : Nat) : isHeld k key = .ok (k.isHeld key) := by
  unfold isHeld
  by_cases hkey : key ≤ 15
  · obtain ⟨mask, hshift, hmask⟩ := exists_mask (Nat.lt_succ_of_le hkey)
    have hne : BitVec.twoPow 16 key ≠ 0 := by
      intro hzero
      have := congrArg (BitVec.getLsbD · key) hzero
      simp at this
      omega
    rw [if_pos hkey, hshift, ok_bind, hmask, BitVec.and_twoPow, Keypad.isHeld]
    cases k.held.getLsbD key
    · rfl
    · rw [if_pos rfl, bne_iff_ne.mpr hne]
      rfl
  · rw [if_neg hkey, Keypad.isHeld_eq_false_of_le k (by omega)]
    rfl

theorem press_eq (k : Keypad) (key : Nibble) : press k key = .ok (k.press key) := by
  obtain ⟨mask, hshift, hmask⟩ := exists_mask key.isLt
  rw [press, hshift, ok_bind, hmask]
  rfl

theorem release_eq (k : Keypad) (key : Nibble) : release k key = .ok (k.release key) := by
  obtain ⟨mask, hshift, hmask⟩ := exists_mask key.isLt
  rw [release, hshift, ok_bind, hmask]
  rfl

theorem toggle_eq (d : Display) (x y : Nat) (on : Bool) :
    toggle d x y on = .ok (d.toggle x y on) := by
  have hrow : y % Display.height = (Display.rowOf y).val := rfl
  have hcol : x % Display.width = (Display.colOf x).val := rfl
  rw [toggle, hrow, hcol]
  simp only [cell_fin, setCell_fin, ok_bind]
  rfl

theorem apply_eq (v : Registers) (op : Arithmetic) (x y : Nibble) :
    apply v op x y = .ok (v.apply op x y) := by
  cases op
  all_goals
    simp only [apply, cell_reg, setCell_reg, setCell_flag, ok_bind]
    rfl

/-! ## Sprites -/

open Sprite (Canvas squares squaresOfRow)

theorem paint_eq (x y : Nibble) {row col : Nat} (hrow : row < 16) (hcol : col < 8) (byte : UInt8)
    (c : Canvas) :
    paint x y row byte c col = .ok (c.paint x y ⟨row, col, byte.toNat.testBit (7 - col)⟩) := by
  have hleft : c.regs[x].toNat + col < 2 ^ sizeWidth := by
    have := c.regs[x].toNat_lt
    unfold sizeWidth
    omega
  have htop : c.regs[y].toNat + row < 2 ^ sizeWidth := by
    have := c.regs[y].toNat_lt
    unfold sizeWidth
    omega
  have hbit : (byte.toNat >>> (7 - col) % 2 == 1) = byte.toNat.testBit (7 - col) := by
    rw [Nat.testBit_eq_decide_div_mod_eq, Nat.shiftRight_eq_div_pow]
    rfl
  have hshift : 7 - col < 8 := by omega
  simp only [paint, difference_eq (Nat.le_of_lt_succ hcol), shiftRight_eq hshift, cell_reg,
    sum_eq hleft, sum_eq htop, toggle_eq, hbit, setCell_flag, ok_bind, pure_eq, Canvas.paint]
  split
  · rfl
  · rfl

/-- The bytes of a run, each with its place. -/
theorem zipIdx_readRun {α : Type} {n : Nat} (v : Vector α n) {start length : Nat}
    (h : start + length ≤ n) (a : α) :
    (readRun v start length).zipIdx =
      (List.range length).map fun i => (v[start + i]?.getD a, i) := by
  apply List.ext_getElem?
  intro i
  rw [List.getElem?_zipIdx, List.getElem?_map, getElem?_readRun]
  by_cases hi : i < length
  · have hcell : start + i < n := by omega
    rw [if_pos hi, List.getElem?_range hi, Option.map_some, Vector.getElem?_eq_getElem hcell,
      Option.map_some, Option.getD_some, Nat.zero_add]
  · rw [if_neg hi, List.getElem?_eq_none (by simp; omega)]
    rfl

theorem paintRow_eq {m : Machine} (x y : Nibble) {n row : Nat} (hn : n ≤ 16) (hrow : row < n)
    (h : Memory.InBounds m.index n) (c : Canvas) :
    paintRow m x y c row =
      .ok ((squaresOfRow row (m.memory[m.index.toNat + row]?.getD 0)).foldl
        (Canvas.paint x y) c) := by
  have haddress : m.index.toNat + row < Memory.size := Nat.lt_of_lt_of_le (by omega) h
  have hsum : m.index.toNat + row < 2 ^ sizeWidth := Nat.lt_trans haddress (by decide)
  have hcols : ∀ col ∈ List.range 8, ∀ c, paint x y row m.memory[m.index.toNat + row] c col = _ :=
    fun col hcol => paint_eq x y (by omega) (List.mem_range.mp hcol) _
  rw [paintRow, sum_eq hsum, ok_bind, cell_of_lt _ haddress, ok_bind, foldlM_eq hcols,
    Vector.getElem?_eq_getElem haddress, squaresOfRow, List.foldl_map]
  rfl

theorem draw_eq {m : Machine} (x y : Nibble) {n : Nat} (hn : n ≤ 16)
    (h : Memory.InBounds m.index n) :
    draw m x y n = .ok (Canvas.draw x y (m.readIndex n) ⟨m.display, m.regs⟩) := by
  have hrows : ∀ row ∈ List.range n, ∀ c, paintRow m x y c row = _ :=
    fun row hrow => paintRow_eq x y hn (List.mem_range.mp hrow) h
  rw [draw, setCell_flag, ok_bind, foldlM_eq hrows, Canvas.draw, squares, Machine.readIndex,
    zipIdx_readRun m.memory h 0, List.flatMap_map, List.foldl_flatMap]

/-! ## Instructions -/

section instructions

open Machine (ran)

variable {m : Machine}

theorem within_eq {length : Nat} (hlength : length ≤ 16) {next : Checked (Answer × Machine)}
    {result : Answer × Machine} (h : Memory.InBounds m.index length → next = .ok result) :
    within m length next = .ok (m.within length result) := by
  have hsum : m.index.toNat + length < 2 ^ sizeWidth := by
    have := m.index.toNat_lt
    unfold sizeWidth
    omega
  rw [within, sum_eq hsum, ok_bind, Machine.within]
  by_cases hin : Memory.InBounds m.index length
  · rw [if_pos hin, h hin]
    exact if_pos hin
  · rw [if_neg hin]
    exact if_neg hin

theorem skip_eq (x : Nibble) {c : UInt8 → Checked Bool} {taken : Bool}
    (h : c m.regs[x] = .ok taken) : skip m x c = .ok (ran (m.skipIf taken)) := by
  rw [skip, cell_reg, ok_bind, h]
  rfl

theorem setReg_eq (m : Machine) (x : Nibble) (byte : UInt8) :
    setReg m x byte = .ok (m.setReg x byte) := by
  rw [setReg, setCell_reg]
  rfl

theorem putDecimal_eq (x : Nibble) (h : Memory.InBounds m.index 3) :
    putDecimal m x = .ok (m.writeIndex (Machine.decimalDigits m.regs[x])) := by
  have hlast : m.index.toNat + 2 < Memory.size := h
  have hfits : Memory.size < 2 ^ sizeWidth := by decide
  rw [putDecimal, cell_reg, ok_bind, setCell_eq_setIfInBounds _ (by omega), ok_bind,
    sum_eq (by omega), ok_bind, setCell_eq_setIfInBounds _ (by omega), ok_bind, sum_eq (by omega),
    ok_bind, setCell_eq_setIfInBounds _ hlast]
  rfl

theorem storeRegs_eq {count : Nat} (hcount : count ≤ 16) (h : Memory.InBounds m.index count) :
    storeRegs m count = .ok (m.writeIndex (readRun m.regs 0 count)) := by
  have hstop : m.index.toNat + count ≤ Memory.size := h
  have hsum : m.index.toNat + count < 2 ^ sizeWidth := Nat.lt_of_le_of_lt hstop (by decide)
  have hlength : (readRun m.regs 0 count).length = m.index.toNat + count - m.index.toNat := by
    rw [length_readRun (by omega)]
    omega
  rw [storeRegs, sum_eq hsum, ok_bind, slice_eq m.regs (Nat.zero_le _) hcount, Nat.sub_zero,
    ok_bind, copySlice_eq m.memory (Nat.le_add_right _ _) hstop hlength]
  rfl

theorem loadRegs_eq {count : Nat} (hcount : count ≤ 16) (h : Memory.InBounds m.index count) :
    loadRegs m count = .ok { m with regs := writeRun m.regs 0 (m.readIndex count) } := by
  have hstop : m.index.toNat + count ≤ Memory.size := h
  have hsum : m.index.toNat + count < 2 ^ sizeWidth := Nat.lt_of_le_of_lt hstop (by decide)
  have hlength : (readRun m.memory m.index.toNat count).length = count - 0 := length_readRun hstop
  rw [loadRegs, sum_eq hsum, ok_bind, slice_eq m.memory (Nat.le_add_right _ _) hstop,
    Nat.add_sub_cancel_left, ok_bind, copySlice_eq m.regs (Nat.zero_le _) hcount hlength]
  rfl

/-- No instruction traps, whatever machine it finds: those that work on memory or on the stack look
for their fault first. -/
theorem execute_eq (m : Machine) (i : Instruction) : execute m i = .ok (m.perform i) := by
  have hregs : ∀ x : Nibble, x.val + 1 ≤ 16 := fun x => x.isLt
  have hcount : ∀ x : Nibble, x.val + 1 < 2 ^ sizeWidth :=
    fun x => Nat.lt_of_le_of_lt (hregs x) (by decide)
  cases i
  case jumpOffset target =>
    rw [execute, cell_of_lt m.regs (by decide)]
    rfl
  case call target =>
    by_cases hfull : m.stack.depth = CallStack.capacity
    · have hs : m.stack.push? m.pc = none := CallStack.push?_eq_none_iff.mpr hfull
      simp only [execute, Machine.perform, hs, hfull, if_true, pure_eq]
    · obtain ⟨stack, hs⟩ := CallStack.exists_push? hfull m.pc
      simp only [execute, Machine.perform, hs, hfull, if_false, push_eq hs, ok_bind, pure_eq]
  case ret =>
    by_cases hempty : m.stack.depth = 0
    · have hs : m.stack.pop? = none := CallStack.pop?_eq_none_iff.mpr hempty
      simp only [execute, Machine.perform, hs, hempty, if_true, pure_eq]
    · obtain ⟨⟨address, stack⟩, hs⟩ := CallStack.exists_pop? hempty
      simp only [execute, Machine.perform, hs, hempty, if_false, pop_eq hs, ok_bind, pure_eq]
  case skipEqByte x nn | skipNeByte x nn => exact skip_eq x rfl
  case skipEqReg x y | skipNeReg x y =>
    apply skip_eq x
    rw [cell_reg]
    rfl
  case skipHeld x => exact skip_eq x (isHeld_eq m.keypad _)
  case skipNotHeld x =>
    apply skip_eq x
    rw [isHeld_eq]
    rfl
  case setByte x _ | random x _ | readDelay x =>
    rw [execute, setReg_eq]
    rfl
  case addByte x _ =>
    rw [execute, cell_reg, ok_bind, setReg_eq]
    rfl
  case addIndex | setDelay | setSound =>
    rw [execute, cell_reg]
    rfl
  case arithmetic op x y =>
    rw [execute, apply_eq]
    rfl
  case waitKey x =>
    cases hk : m.keypad.pending with
    | none => simp only [execute, Machine.perform, hk, pure_eq]
    | some key => simp only [execute, Machine.perform, hk, setReg_eq, ok_bind, pure_eq]
  case glyph x =>
    rw [execute, cell_reg, ok_bind, Machine.perform]
    by_cases hdigit : m.regs[x].toNat ≤ 15
    · have hoffset : m.regs[x].toNat * Font.glyphSize ≤ 15 * 5 := Nat.mul_le_mul_right 5 hdigit
      have hsum : Font.start + m.regs[x].toNat * Font.glyphSize < 2 ^ sizeWidth := by
        unfold sizeWidth Font.start
        omega
      have hproduct : m.regs[x].toNat * Font.glyphSize < 2 ^ sizeWidth := by
        unfold sizeWidth
        omega
      rw [if_pos hdigit, if_pos hdigit, product_eq hproduct, ok_bind, sum_eq hsum]
      rfl
    · rw [if_neg hdigit, if_neg hdigit]
      rfl
  case draw x y n =>
    apply within_eq (Nat.le_of_lt n.isLt)
    intro hin
    rw [draw_eq x y (Nat.le_of_lt n.isLt) hin]
    rfl
  case decimal x =>
    apply within_eq (by decide)
    intro hin
    rw [putDecimal_eq x hin]
    rfl
  case store x =>
    rw [execute, sum_eq (hcount x), ok_bind]
    apply within_eq (hregs x)
    intro hin
    rw [storeRegs_eq (hregs x) hin]
    rfl
  case load x =>
    rw [execute, sum_eq (hcount x), ok_bind]
    apply within_eq (hregs x)
    intro hin
    rw [loadRegs_eq (hregs x) hin]
    rfl
  all_goals rfl

end instructions

/-! ## The machine -/

theorem boot_eq {rom : List UInt8} (hfit : rom.length ≤ Memory.romCapacity) (speed : Nat)
    (random : Random.Stream) : boot rom speed random = .ok (Machine.boot rom speed random) := by
  have hstop : Memory.romStart + rom.length ≤ Memory.size := by
    have : Memory.romStart + Memory.romCapacity = Memory.size := rfl
    omega
  have hsum : Memory.romStart + rom.length < 2 ^ sizeWidth := Nat.lt_of_le_of_lt hstop (by decide)
  have hfont : Font.glyphs.length = Font.stop - Font.start := by decide
  rw [boot, copySlice_eq _ (by decide) (by decide) hfont, ok_bind, sum_eq hsum, ok_bind,
    copySlice_eq _ (Nat.le_add_right _ _) hstop (Nat.add_sub_cancel_left _ _).symm]
  rfl

theorem load_eq (m : Machine) (rom : List UInt8) : load m rom = .ok (m.load rom) := by
  have hcapacity : difference Memory.size Memory.romStart = .ok Memory.romCapacity :=
    difference_eq (by decide)
  rw [load, hcapacity, ok_bind, Machine.load]
  by_cases hfit : rom.length ≤ Memory.romCapacity
  · rw [if_pos hfit, if_pos hfit, boot_eq hfit]
    rfl
  · rw [if_neg hfit, if_neg hfit]
    rfl

theorem attempt_eq (m : Machine) : attempt m = .ok m.attempt := by
  unfold attempt Machine.attempt
  cases m.fetch with
  | ok word =>
    show (decode word >>= fun i => execute m.advance i) = _
    rw [decode_eq, ok_bind, execute_eq]
    rfl
  | error fault => rfl

theorem step_eq (m : Machine) : step m = .ok m.step := by
  unfold step Machine.step
  by_cases hp : m.paused = true
  · rw [if_pos hp, if_pos hp]
    rfl
  · rw [if_neg hp, if_neg hp, attempt_eq, ok_bind]
    obtain ⟨answer, next⟩ := m.attempt
    cases answer with
    | ok outcome => rfl
    | error fault => rfl

/-- The count of the frames since the last tick fits into a byte because it is bounded. -/
theorem cycle_eq {m : Machine} (hm : m.Bounded) : cycle m = .ok m.cycle := by
  have hcount := hm.sinceTick_le
  rw [cycle, sum_eq (by omega), ok_bind, Machine.cycle, Machine.countFrame]
  by_cases hdue : m.speed ≤ m.sinceTick + 1
  · rw [if_pos hdue, if_pos hdue]
    exact step_eq _
  · rw [if_neg hdue, if_neg hdue]
    exact step_eq _

theorem setSpeed_eq (m : Machine) (speed : Nat) : setSpeed m speed = .ok (m.setSpeed speed) := by
  have hclamp : clamp Machine.minSpeed Machine.maxSpeed speed = .ok _ := if_pos (by decide)
  rw [setSpeed, hclamp]
  rfl

theorem pressKey_eq (m : Machine) (key : UInt8) : pressKey m key = .ok (m.press key) := by
  unfold pressKey Machine.press
  cases Nibble.ofNat? key.toNat with
  | some k =>
    show (press m.keypad k >>= _) = _
    rw [press_eq]
    rfl
  | none => rfl

theorem releaseKey_eq (m : Machine) (key : UInt8) : releaseKey m key = .ok (m.release key) := by
  unfold releaseKey Machine.release
  cases Nibble.ofNat? key.toNat with
  | some k =>
    show (release m.keypad k >>= _) = _
    rw [release_eq]
    rfl
  | none => rfl

/-! ## The host's calls -/

variable {p : Pacer}

theorem runFrame_eq (hm : p.machine.Bounded) (hframes : p.frames + 1 < 2 ^ frameWidth) :
    runFrame p = .ok p.runFrame := by
  rw [runFrame, sum_eq hframes, ok_bind, cycle_eq hm]
  rfl

theorem runFrame_owed (hm : p.machine.Bounded) (hframes : p.frames + 1 < 2 ^ frameWidth) :
    runFrame { p with owed := p.owed - Pacer.frameStep } =
      .ok (p.machine.cycle.1, p.afterFrame) := by
  rw [runFrame_eq (p := { p with owed := p.owed - Pacer.frameStep }) hm hframes]
  rfl

theorem drain_eq {budget : Nat} (hbudget : budget ≤ Pacer.maxFrames) (last : Outcome)
    (hm : p.machine.Bounded) (hframes : (Pacer.drain budget last p).2.frames < 2 ^ frameWidth) :
    drain budget last p = .ok (Pacer.drain budget last p) := by
  induction budget generalizing last p with
  | zero => rfl
  | succ budget ih =>
    by_cases hdue : Pacer.frameStep ≤ p.owed
    · cases hc : p.machine.cycle.1 with
      | ok outcome =>
        rw [Pacer.drain_of_ok hdue hc] at hframes ⊢
        -- the frames run after this one are counted on top of it
        obtain ⟨k, hk, _⟩ := Pacer.drain_frames budget outcome p.afterFrame
        have hnext : p.afterFrame.frames = p.frames + 1 := rfl
        have hcount : Pacer.maxFrames - (budget + 1) + 1 < 2 ^ 32 := by
          unfold Pacer.maxFrames
          omega
        rw [drain, if_pos hdue, runFrame_owed hm (by omega), hc]
        show (sum 32 _ 1 >>= fun _ => drain budget outcome p.afterFrame) = _
        rw [sum_eq hcount, ok_bind]
        exact ih (by omega) outcome (Machine.bounded_act p.machine .frame hm) hframes
      | error fault =>
        rw [Pacer.drain_of_error hdue hc] at hframes ⊢
        rw [drain, if_pos hdue, runFrame_owed hm hframes, hc]
        rfl
    · rw [Pacer.drain_of_not_due hdue, drain, if_neg hdue]
      rfl

/-- A call is carried out without a trap, if its frames can be counted. -/
theorem perform_eq (hm : p.machine.Bounded) (call : Call)
    (hframes : (p.perform call).2.frames < 2 ^ frameWidth) :
    perform p call = .ok (p.perform call) := by
  cases call
  case load rom =>
    rw [perform, load_eq, ok_bind, Pacer.perform]
    cases p.machine.load rom with
    | ok machine => rfl
    | error fault => rfl
  case step =>
    rw [perform, step_eq]
    rfl
  case cycle =>
    rw [perform, cycle_eq hm]
    rfl
  case runFrame =>
    rw [perform, runFrame_eq hm hframes]
    rfl
  case update dt =>
    have hupdate : update p dt = .ok (p.update dt) := drain_eq (Nat.le_refl _) _ hm hframes
    rw [perform, hupdate]
    rfl
  case tick => rfl
  case press key =>
    rw [perform, pressKey_eq]
    rfl
  case release key =>
    rw [perform, releaseKey_eq]
    rfl
  case setSpeed speed =>
    rw [perform, setSpeed_eq]
    rfl
  case speedUp =>
    -- the speed is far from the end of a byte
    have hmin : min 255 (p.machine.speed + 1) = p.machine.speed + 1 := by
      have := hm.speed_le
      omega
    rw [perform, hmin, setSpeed_eq]
    rfl
  case speedDown =>
    rw [perform, setSpeed_eq]
    rfl

theorem frames_le_perform (p : Pacer) (call : Call) : p.frames ≤ (p.perform call).2.frames := by
  cases call
  case load rom =>
    rw [Pacer.perform_load]
    split
    · exact Nat.le_refl _
    · exact Nat.le_refl _
  case runFrame => exact Nat.le_succ _
  case update dt =>
    obtain ⟨k, hk, _⟩ := p.update_frames dt
    show p.frames ≤ (p.update dt).2.frames
    omega
  all_goals exact Nat.le_refl _

theorem frames_le_performAll (p : Pacer) (calls : List Call) :
    p.frames ≤ (p.performAll calls).frames := by
  induction calls generalizing p with
  | nil => exact Nat.le_refl _
  | cons call calls ih => exact Nat.le_trans (frames_le_perform p call) (ih _)

/-- A history of calls is carried out without a trap, if its frames can be counted. -/
theorem performAll_eq (hm : p.machine.Bounded) (calls : List Call)
    (hframes : (p.performAll calls).frames < 2 ^ frameWidth) :
    performAll p calls = .ok ((p.exchanges calls).map Exchange.reply, p.performAll calls) := by
  induction calls generalizing p with
  | nil => rfl
  | cons call calls ih =>
    have hlt : (p.perform call).2.frames < 2 ^ frameWidth :=
      Nat.lt_of_le_of_lt (frames_le_performAll _ calls) hframes
    have hnext : (p.perform call).2.machine.Bounded := by
      rw [Pacer.machine_perform]
      exact Machine.actAll_induction Machine.bounded_act _ _ hm
    rw [performAll, perform_eq hm call hlt, ok_bind]
    show (performAll (p.perform call).2 calls >>= _) = _
    rw [ih hnext hframes]
    rfl

/-- Whatever programs are loaded and whatever a host does, no check fails: the checked machine runs
to the end of every history with fewer than 2^64 frames, and gives the replies and the machine that
it gives without checks. -/
theorem no_trap (seed : UInt64) (calls : List Call)
    (hframes : ((Pacer.ofSeed seed).performAll calls).frames < 2 ^ 64) :
    (do performAll (← ofSeed seed) calls) =
      .ok (((Pacer.ofSeed seed).exchanges calls).map Exchange.reply,
        (Pacer.ofSeed seed).performAll calls) := by
  have hstart : ofSeed seed = .ok (Pacer.ofSeed seed) := by
    rw [ofSeed, boot_eq (Nat.zero_le _)]
    rfl
  have hbounded : (Pacer.ofSeed seed).machine.Bounded :=
    Machine.bounded_boot (by decide) (by decide) [] { key := .ofSeed seed }
  rw [hstart, ok_bind]
  exact performAll_eq hbounded calls hframes

/-- A program that puts digits into the last three bytes of memory, draws them over both edges of
the display and loads them, calls a subroutine that waits for a key, and returns once too often. -/
theorem no_trap_edges :
    let calls := [.load [0x60, 0xFE, 0xAF, 0xFD, 0xF0, 0x33, 0xD0, 0x03, 0xF2, 0x65, 0x22, 0x10,
      0x00, 0xEE, 0x00, 0x00, 0xFF, 0x0A, 0x00, 0xEE], .setSpeed 255, .press 16, .press 15,
      .update 10, .release 15, .cycle, .load (List.replicate 3585 0), .speedDown, .runFrame]
    let p := (Pacer.ofSeed 0).performAll calls
    (do performAll (← ofSeed 0) calls) =
      .ok (((Pacer.ofSeed 0).exchanges calls).map Exchange.reply, p) ∧
    p.frames = 9 ∧ p.machine.paused = true ∧
    p.machine.regs.toList = [2, 5, 4, 0, 0, 0, 0, 0, 0, 0, 0, 0, 0, 0, 0, 15] := by
  intro calls p
  have hend : p.frames = 9 ∧ p.machine.paused = true ∧
      p.machine.regs.toList = [2, 5, 4, 0, 0, 0, 0, 0, 0, 0, 0, 0, 0, 0, 0, 15] := by
    decide +kernel
  have hframes : p.frames < 2 ^ 64 := by
    rw [hend.1]
    decide
  exact ⟨no_trap 0 calls hframes, hend⟩

end Chip8.Checked
