import Chip8.Proofs.Footprints
import Chip8.Proofs.Stores

/-!
# Blocks of registers

`Fx55` stores the registers V0 to Vx from I on and `Fx65` loads them, and neither moves I. So what
was stored is loaded again, by the same instruction or by one for fewer registers, as long as the
bytes are left alone (`regs_load_of_bytes`), and storing what was just loaded changes nothing
(`memory_store_load`). The three digits that `Fx33` stores can be loaded as well.
-/

namespace Chip8

/-- A run is found where it was written. -/
theorem getElem?_writeRun_add {α : Type} {n : Nat} (v : Vector α n) (start : Nat)
    {values : List α} {k : Nat} (hk : k < values.length) (h : start + k < n) :
    (writeRun v start values)[start + k]? = values[k]? := by
  rw [getElem?_writeRun, if_pos (by omega), Nat.add_sub_cancel_left]

namespace Machine

section

variable {m : Machine} {x : Nibble}

theorem rangeFault_eq_none {length : Nat} (h : m.index.toNat + length ≤ 4096) :
    m.rangeFault length = none :=
  if_neg (Nat.not_lt.mpr h)

theorem execute_store (h : m.index.toNat + x.val ≤ 4095) :
    m.execute (.store x) = (.ok .ran, m.after (.store x)) :=
  execute_eq_after (rangeFault_eq_none (Nat.succ_le_succ h))

theorem execute_load (h : m.index.toNat + x.val ≤ 4095) :
    m.execute (.load x) = (.ok .ran, m.after (.load x)) :=
  execute_eq_after (rangeFault_eq_none (Nat.succ_le_succ h))

theorem execute_decimal (h : m.index.toNat ≤ 4093) :
    m.execute (.decimal x) = (.ok .ran, m.after (.decimal x)) :=
  execute_eq_after (rangeFault_eq_none (Nat.add_le_add_right h 3))

/-- The registers that are loaded hold the bytes from I on. -/
theorem regs_load_of_bytes {bytes : List UInt8} (h : m.index.toNat + x.val ≤ 4095)
    (hbytes : ∀ k ≤ x.val, m.memory[m.index.toNat + k]? = bytes[k]?) {k : Nibble} (hk : k ≤ x) :
    bytes[k.val]? = some (m.after (.load x)).regs[k] := by
  rw [← hbytes k.val hk]
  exact regs_load (rangeFault_eq_none (Nat.succ_le_succ h)) hk

/-- To store the registers that were just loaded changes nothing. -/
theorem memory_store_load (h : m.index.toNat + x.val ≤ 4095) :
    ((m.after (.load x)).after (.store x)).memory = m.memory := by
  have hx := x.isLt
  have hfit : m.index.toNat + (x.val + 1) ≤ Memory.size := Nat.succ_le_succ h
  have hlength : (m.readIndex (x + 1)).length = x.val + 1 := length_readRun hfit
  have hregs : readRun (m.after (.load x)).regs 0 (x + 1) = m.readIndex (x + 1) := by
    have hback := readRun_writeRun m.regs 0 (m.readIndex (x + 1)) (by omega)
    rw [hlength] at hback
    exact hback
  show writeRun m.memory m.index.toNat (readRun (m.after (.load x)).regs 0 (x + 1)) = m.memory
  rw [hregs]
  exact writeRun_readRun m.memory m.index.toNat (x + 1) hfit

theorem memory_store (h : m.index.toNat + x.val ≤ 4095) {k : Nat} (hk : k ≤ x.val) :
    (m.after (.store x)).memory[m.index.toNat + k]? = (readRun m.regs 0 (x + 1))[k]? := by
  have hx := x.isLt
  have hlength : (readRun m.regs 0 (x.val + 1)).length = x.val + 1 := length_readRun (by omega)
  have hinside : m.index.toNat + k < Memory.size := Nat.lt_succ_of_le (by omega)
  exact getElem?_writeRun_add m.memory m.index.toNat (by omega) hinside

theorem memory_decimal (h : m.index.toNat ≤ 4093) {k : Nat} (hk : k ≤ 2) :
    (m.after (.decimal x)).memory[m.index.toNat + k]? = (decimalDigits m.regs[x])[k]? := by
  have hinside : m.index.toNat + k < Memory.size := Nat.lt_succ_of_le (by omega)
  exact getElem?_writeRun_add m.memory m.index.toNat (Nat.lt_succ_of_le hk) hinside

/-- Registers that were stored are loaded again, all or the first of them. -/
theorem regs_load_store {between : Machine} {y k : Nibble} (h : m.index.toNat + x.val ≤ 4095)
    (hy : y ≤ x) (hindex : between.index = m.index)
    (hbytes : ∀ k ≤ y.val, between.memory[m.index.toNat + k]? =
      (m.after (.store x)).memory[m.index.toNat + k]?) (hk : k ≤ y) :
    (between.after (.load y)).regs[k] = m.regs[k] := by
  have hle : y.val ≤ x.val := hy
  have hrange : between.index.toNat + y.val ≤ 4095 := by
    rw [hindex]
    omega
  have hblock : ∀ j ≤ y.val,
      between.memory[between.index.toNat + j]? = (readRun m.regs 0 (x + 1))[j]? := by
    intro j hj
    rw [hindex, hbytes j hj, memory_store h (Nat.le_trans hj hle)]
  have hstored : (readRun m.regs 0 (x + 1))[k.val]? = some m.regs[k] :=
    (eq_readRun_regs_iff.mp rfl).2 k (Nat.le_trans hk hy)
  exact Option.some.inj ((regs_load_of_bytes hrange hblock hk).symm.trans hstored)

/-- The digits that were stored are loaded into V0, V1 and V2. -/
theorem digits_load_decimal (h : m.index.toNat ≤ 4093) :
    let digits := ((m.after (.decimal x)).after (.load 2)).regs
    [digits[(0 : Nibble)], digits[(1 : Nibble)], digits[(2 : Nibble)]] =
      decimalDigits m.regs[x] := by
  intro digits
  have hloaded : ∀ k : Nibble, k ≤ 2 → (decimalDigits m.regs[x])[k.val]? = some digits[k] :=
    fun k => regs_load_of_bytes (m := m.after (.decimal x)) (x := 2) (Nat.add_le_add_right h 2)
      (fun k hk => memory_decimal h hk)
  have hundreds : m.regs[x] / 100 = digits[(0 : Nibble)] := Option.some.inj (hloaded 0 (by decide))
  have htens : m.regs[x] / 10 % 10 = digits[(1 : Nibble)] := Option.some.inj (hloaded 1 (by decide))
  have hunits : m.regs[x] % 10 = digits[(2 : Nibble)] := Option.some.inj (hloaded 2 (by decide))
  rw [← hundreds, ← htens, ← hunits, decimalDigits]

end

/-- What a block of registers or of digits is read back as. Registers that were stored are loaded
again, all or the first of them, if I and their bytes are then as the store left them, whatever else
was done to the machine; the registers behind them stay as they are. To load a block and store it
again changes no byte. The digits of Vx, stored and then loaded into V0, V1 and V2, make up what Vx
was, and no other byte is written. I is not moved. -/
theorem block_law (m : Machine) (x : Nibble) :
    (m.index.toNat + x.val ≤ 4095 →
      let stored := (m.execute (.store x)).2
      (m.execute (.store x)).1 = .ok .ran ∧ stored.index = m.index ∧ stored.regs = m.regs ∧
      ∀ (y : Nibble) (between : Machine), y ≤ x → between.index = m.index →
        (∀ k ≤ y.val,
          between.memory[m.index.toNat + k]? = stored.memory[m.index.toNat + k]?) →
        let loaded := (between.execute (.load y)).2
        (between.execute (.load y)).1 = .ok .ran ∧ loaded.index = m.index ∧
          (∀ k, k ≤ y → loaded.regs[k] = m.regs[k]) ∧
          ∀ k, y < k → loaded.regs[k] = between.regs[k]) ∧
    (m.index.toNat + x.val ≤ 4095 →
      let loaded := (m.execute (.load x)).2
      let stored := (loaded.execute (.store x)).2
      (m.execute (.load x)).1 = .ok .ran ∧ (loaded.execute (.store x)).1 = .ok .ran ∧
        loaded.index = m.index ∧ stored.index = m.index ∧ stored.memory = m.memory) ∧
    (m.index.toNat ≤ 4093 →
      let stored := (m.execute (.decimal x)).2
      let loaded := (stored.execute (.load 2)).2
      let v (k : Nibble) := loaded.regs[k].toNat
      (m.execute (.decimal x)).1 = .ok .ran ∧ (stored.execute (.load 2)).1 = .ok .ran ∧
        stored.index = m.index ∧ loaded.index = m.index ∧
        (v 0 ≤ 9 ∧ v 1 ≤ 9 ∧ v 2 ≤ 9) ∧ 100 * v 0 + 10 * v 1 + v 2 = m.regs[x].toNat ∧
        ∀ k, k < m.index.toNat ∨ m.index.toNat + 2 < k → loaded.memory[k]? = m.memory[k]?) := by
  refine ⟨fun h => ?_, fun h => ?_, fun h => ?_⟩
  · rw [execute_store h]
    refine ⟨rfl, rfl, rfl, fun y between hy hindex hbytes => ?_⟩
    have hrange : between.index.toNat + y.val ≤ 4095 := by
      rw [hindex]
      exact Nat.le_trans (Nat.add_le_add_left hy _) h
    rw [execute_load hrange]
    exact ⟨rfl, hindex, fun k hk => regs_load_store h hy hindex hbytes hk,
      fun k hk => regs_load_of_lt hk⟩
  · have hstore := execute_store (m := m.after (.load x)) h
    rw [execute_load h]
    intro loaded stored
    have hstored : stored = (m.after (.load x)).after (.store x) := congrArg Prod.snd hstore
    exact ⟨rfl, congrArg Prod.fst hstore, rfl, by rw [hstored]; rfl,
      by rw [hstored, memory_store_load h]⟩
  · have hload := execute_load (m := m.after (.decimal x)) (x := 2) (Nat.add_le_add_right h 2)
    rw [execute_decimal h]
    intro stored loaded v
    have hloaded : loaded = (m.after (.decimal x)).after (.load 2) := congrArg Prod.snd hload
    have hdigits := digits_load_decimal (x := x) h
    rw [← hloaded] at hdigits
    obtain ⟨hundreds, htens, hunits, hvalue⟩ := decimalDigits_eq_iff.mp hdigits
    refine ⟨rfl, congrArg Prod.fst hload, rfl, by rw [hloaded]; rfl, ⟨hundreds, htens, hunits⟩,
      hvalue, fun k hk => ?_⟩
    have hlength : (decimalDigits m.regs[x]).length = 3 := rfl
    rw [hloaded]
    exact getElem?_writeRun_of_outside m.memory m.index.toNat (decimalDigits m.regs[x]) (by omega)

/-- All registers, stored in the last sixteen bytes of memory and cleared: four of them are loaded
again. And the digits of V1, stored in the last three bytes and loaded over V1. -/
theorem block_law_edge :
    let m := { boot [] minSpeed { key := .ofSeed 0 } with
      index := 4080, regs := Registers.set (Vector.replicate 16 7) 1 254 }
    let between := { (m.execute (.store 15)).2 with regs := Vector.replicate 16 0 }
    let top := { m with index := 4093 }
    let digits := ((top.execute (.decimal 1)).2.execute (.load 2)).2.regs
    m.index.toNat + (15 : Nibble).val ≤ 4095 ∧ top.index.toNat ≤ 4093 ∧
      (between.execute (.load 3)).2.regs[(1 : Nibble)] = 254 ∧
      (between.execute (.load 3)).2.regs[(4 : Nibble)] = 0 ∧
      ((m.execute (.load 15)).2.execute (.store 15)).2.memory = m.memory ∧
      100 * digits[(0 : Nibble)].toNat + 10 * digits[(1 : Nibble)].toNat +
        digits[(2 : Nibble)].toNat = 254 := by
  intro m between top digits
  have hm : m.index.toNat + (15 : Nibble).val ≤ 4095 := by decide
  have htop : top.index.toNat ≤ 4093 := by decide
  have hkept : between.memory = (m.execute (.store 15)).2.memory := by dsimp only [between]
  obtain ⟨hstore, hload, _⟩ := block_law m 15
  obtain ⟨_, hindex, _, hblock⟩ := hstore hm
  obtain ⟨_, _, hfirst, hbehind⟩ := hblock 3 between (by decide)
    (by dsimp only [between]; exact hindex) fun k _ => by rw [hkept]
  have hsame := (hload hm).2.2.2.2
  have hvalue := ((block_law top 1).2.2 htop).2.2.2.2.2.1
  refine ⟨hm, htop, ?_, ?_, hsame, ?_⟩
  · exact (hfirst 1 (by decide)).trans (by decide +kernel)
  · exact (hbehind 4 (by decide)).trans (by decide +kernel)
  · exact hvalue.trans (by decide +kernel)

end Machine

end Chip8
