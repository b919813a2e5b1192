import Chip8.Proofs.Loading
import Chip8.Proofs.Pacing

/-!
# Stores

Memory holds what was stored last. Two instructions store: `Fx33` the three decimal digits of Vx
and `Fx55` the registers V0 to Vx, both from I on (`Moment.Stores`). At every other moment memory
stays as it is, until a program is loaded.

* `Moment.store?_eq_some_iff`: what is stored at a moment, told without the machine's own functions.
* `Moment.getElem?_memory_next`: a moment puts the bytes that it stores into memory and no others.
* `Machine.getElem?_memory_actAll`: the byte at an address after a run.
* `memory_law` is about the histories of a pacer from a loaded program on.
-/

namespace Chip8

/-! ## Memory as a program finds it -/

/-- The byte at an address when a program starts: the glyphs and zeros below the program, and zeros
behind it. -/
def Memory.initial (rom : List UInt8) (address : Nat) : UInt8 :=
  if address < 0x200 then Font.glyphs.getD address 0 else rom.getD (address - 0x200) 0

theorem Memory.getElem?_image_eq (rom : List UInt8) {k : Nat} (hk : k < size) :
    (image rom)[k]? = some (initial rom k) := by
  have hstart : romStart = 0x200 := rfl
  have hglyphs : Font.glyphs.length = 80 := rfl
  rw [getElem?_image rom hk, initial, List.getD_eq_getElem?_getD, List.getD_eq_getElem?_getD]
  by_cases hlow : k < 0x200
  · rw [if_neg (by omega), if_pos hlow]
    by_cases hfont : k < Font.glyphs.length
    · rw [if_pos hfont, List.getElem?_eq_getElem hfont, Option.getD_some]
    · rw [if_neg hfont, List.getElem?_eq_none (by omega), Option.getD_none]
  · rw [if_neg hlow]
    by_cases hrom : k - 0x200 < rom.length
    · rw [if_pos (by omega), hstart, List.getElem?_eq_getElem hrom, Option.getD_some]
    · rw [if_neg (by omega), if_neg (by omega), List.getElem?_eq_none (by omega), Option.getD_none]

/-! ## Blocks of bytes -/

/-- A block of bytes, put into memory from an address on. -/
structure Store where
  start : Nat
  bytes : List UInt8
deriving DecidableEq, Repr

/-- The byte that is put at an address, if the block covers it. -/
def Store.byteAt? (s : Store) (address : Nat) : Option UInt8 :=
  if s.start ≤ address then s.bytes[address - s.start]? else none

theorem Store.getElem?_writeRun {n : Nat} (v : Vector UInt8 n) (s : Store) {k : Nat} (hk : k < n) :
    (writeRun v s.start s.bytes)[k]? = (s.byteAt? k).or v[k]? := by
  rw [Chip8.getElem?_writeRun, byteAt?]
  by_cases hle : s.start ≤ k
  · by_cases hlt : k < s.start + s.bytes.length
    · rw [if_pos ⟨hle, hlt, hk⟩, if_pos hle, List.getElem?_eq_getElem (by omega), Option.some_or]
    · rw [if_neg (by omega), if_pos hle, List.getElem?_eq_none (by omega), Option.none_or]
  · rw [if_neg (by omega), if_neg hle, Option.none_or]

namespace Machine

theorem decimalDigits_eq_iff {byte h t u : UInt8} :
    [h, t, u] = decimalDigits byte ↔ h.toNat ≤ 9 ∧ t.toNat ≤ 9 ∧ u.toNat ≤ 9 ∧
      100 * h.toNat + 10 * t.toNat + u.toNat = byte.toNat := by
  have hbyte := byte.toNat_lt
  simp only [decimalDigits, List.cons.injEq, and_true, ← UInt8.toNat_inj, UInt8.toNat_div,
    UInt8.toNat_mod, UInt8.reduceToNat]
  omega

/-- The registers V0 to Vx, register by register. -/
theorem eq_readRun_regs_iff {regs : Registers} {x : Nibble} {bytes : List UInt8} :
    bytes = readRun regs 0 (x + 1) ↔
      bytes.length = x.val + 1 ∧ ∀ j : Nibble, j ≤ x → bytes[j.val]? = some regs[j] := by
  have hx := x.isLt
  have hread : ∀ j : Nibble, regs[j.val]? = some regs[j] := fun j =>
    Vector.getElem?_eq_getElem j.isLt
  have hlength : (readRun regs 0 (x.val + 1)).length = x.val + 1 := length_readRun (by omega)
  constructor
  · rintro rfl
    refine ⟨hlength, fun j hj => ?_⟩
    have : j.val ≤ x.val := hj
    rw [getElem?_readRun, if_pos (by omega), Nat.zero_add, hread]
  · rintro ⟨hlen, hbytes⟩
    apply List.ext_getElem?
    intro i
    by_cases hi : i < x.val + 1
    · have h := hbytes ⟨i, by omega⟩ (Nat.le_of_lt_succ hi)
      rw [getElem?_readRun, if_pos hi, Nat.zero_add, h, ← hread]
    · rw [List.getElem?_eq_none (by omega), List.getElem?_eq_none (by omega)]

end Machine

/-! ## What is stored at a moment -/

namespace Moment

/-- `e.Stores s`: at the moment `e` an instruction is carried out that puts the block `s` into
memory. I and the registers are those from before the instruction. -/
inductive Stores (e : Moment) : Store → Prop where
  /-- `Fx33` stores the hundreds, tens and units of Vx. -/
  | decimal (x : Nibble) (h t u : UInt8) (hi : e.instruction? = some (.decimal x))
      (hdigits : h.toNat ≤ 9 ∧ t.toNat ≤ 9 ∧ u.toNat ≤ 9)
      (hvalue : 100 * h.toNat + 10 * t.toNat + u.toNat = e.machine.regs[x].toNat) :
      Stores e ⟨e.machine.index.toNat, [h, t, u]⟩
  /-- `Fx55` stores V0 to Vx. -/
  | registers (x : Nibble) (bytes : List UInt8) (hi : e.instruction? = some (.store x))
      (hlength : bytes.length = x.val + 1)
      (hbytes : ∀ j : Nibble, j ≤ x → bytes[j.val]? = some e.machine.regs[j]) :
      Stores e ⟨e.machine.index.toNat, bytes⟩

/-- The block that is stored, if one is. -/
def store? (e : Moment) : Option Store :=
  match e.instruction? with
  | some (.decimal x) => some ⟨e.machine.index.toNat, Machine.decimalDigits e.machine.regs[x]⟩
  | some (.store x) => some ⟨e.machine.index.toNat, readRun e.machine.regs 0 (x + 1)⟩
  | _ => none

/-- The byte that is stored at an address, if one is. -/
def stored? (e : Moment) (address : Nat) : Option UInt8 := e.store?.bind (·.byteAt? address)

theorem store?_eq_some_iff {e : Moment} {s : Store} : e.store? = some s ↔ e.Stores s := by
  constructor
  · intro h
    unfold store? at h
    split at h
    · next x hi =>
      cases h
      obtain ⟨hh, ht, hu, hvalue⟩ := Machine.decimalDigits_eq_iff.mp rfl
      exact .decimal x _ _ _ hi ⟨hh, ht, hu⟩ hvalue
    · next x hi =>
      cases h
      obtain ⟨hlength, hbytes⟩ := Machine.eq_readRun_regs_iff.mp rfl
      exact .registers x _ hi hlength hbytes
    · cases h
  · rintro (⟨x, h, t, u, hi, ⟨hh, ht, hu⟩, hvalue⟩ | ⟨x, bytes, hi, hlength, hbytes⟩)
    · rw [store?, hi, Machine.decimalDigits_eq_iff.mpr ⟨hh, ht, hu, hvalue⟩]
    · rw [store?, hi, Machine.eq_readRun_regs_iff.mpr ⟨hlength, hbytes⟩]

/-- A block that is stored lies in memory. -/
theorem Stores.in_memory {e : Moment} {s : Store} (h : e.Stores s) :
    s.start + s.bytes.length ≤ Memory.size := by
  have hrange : ∀ {i : Instruction} {n : Nat}, e.instruction? = some i →
      (∀ m : Machine, m.faultOf i = m.rangeFault n) →
        e.machine.index.toNat + n ≤ Memory.size := by
    intro i n hi hfault
    obtain ⟨m, _, hrests, _, hf, _⟩ := exists_of_instruction? hi
    rw [hfault, Machine.rangeFault] at hf
    split at hf
    · cases hf
    · next hle =>
      rw [← hrests.index]
      exact Nat.not_lt.mp hle
  cases h with
  | decimal x _ _ _ hi => exact hrange hi fun _ => rfl
  | registers x bytes hi hlength =>
    rw [hlength]
    exact hrange hi fun _ => rfl

theorem memory_next {e : Moment} (hl : e.loads = false) :
    e.next.memory = e.store?.elim e.machine.memory fun s =>
      writeRun e.machine.memory s.start s.bytes := by
  rcases e.cases with ⟨h, _⟩ | ⟨_, m, i, hrests, hi, _, hnext⟩ | ⟨_, hi, hkeeps⟩
  · rw [hl] at h
    cases h
  · rw [hnext, store?, hi, ← hrests.memory, ← hrests.index, ← hrests.regs]
    cases i <;> rfl
  · rw [hkeeps.memory, store?, hi]
    rfl

theorem getElem?_memory_next {e : Moment} (hl : e.loads = false) {address : Nat}
    (ha : address < Memory.size) :
    e.next.memory[address]? = (e.stored? address).or e.machine.memory[address]? := by
  rw [memory_next hl, stored?]
  cases e.store? with
  | none => rfl
  | some s => exact s.getElem?_writeRun _ ha

/-- The byte that was last stored at an address. -/
def lastStored? (trace : List Moment) (address : Nat) : Option UInt8 :=
  (trace.filterMap (·.stored? address)).getLast?

end Moment

namespace Machine

/-- The byte at an address after a run without a loaded program. -/
theorem getElem?_memory_actAll {m : Machine} {actions : List Action}
    (hloads : ∀ e ∈ m.moments actions, e.loads = false) {address : Nat}
    (ha : address < Memory.size) :
    (m.actAll actions).memory[address]? =
      (Moment.lastStored? (m.moments actions) address).or m.memory[address]? := by
  -- from the back, since it is the last store that counts
  induction actions using List.reverseRecOn with
  | nil => rfl
  | append_singleton actions a ih =>
    rw [moments_concat, List.forall_mem_append, List.forall_mem_singleton] at hloads
    have hnext := Moment.getElem?_memory_next hloads.2 ha
    rw [Moment.next, ih hloads.1] at hnext
    rw [actAll_concat, moments_concat, hnext, Moment.lastStored?, Moment.lastStored?,
      List.filterMap_append, List.getLast?_append, Option.or_assoc]
    cases h : Moment.stored? ⟨m.actAll actions, a⟩ address <;> simp [h]

end Machine

/-! ## Histories of calls -/

namespace Pacer

/-- Memory after any history of calls since a program was loaded. Each byte is the one that the last
store covering its address put there, or that of the loaded image if there is none. What is stored
at a moment are decimal digits or registers, all within memory; no other moment changes memory, in
particular none at which a step meets a fault, and no call but a loaded program that does not run
the machine. -/
theorem memory_law (p : Pacer) (rom : List UInt8) (calls : List Call) (hfit : rom.length ≤ 3584)
    (hloads : ∀ e ∈ (p.perform (.load rom)).2.exchanges calls, e.loads = false) :
    let start := (p.perform (.load rom)).2
    let trace := start.moments calls
    let memory := (start.performAll calls).machine.memory
    (∀ address < 4096, memory[address]? =
      some ((Moment.lastStored? trace address).getD (Memory.initial rom address))) ∧
    (∀ (e : Moment) (s : Store), e.store? = some s ↔ e.Stores s) ∧
    (∀ (e : Moment) (s : Store), e.Stores s → s.start + s.bytes.length ≤ 4096) ∧
    (∀ e : Moment, e.loads = false → (∀ s, ¬ e.Stores s) → e.next.memory = e.machine.memory) ∧
    (∀ (e : Moment) (fault : Fault), e.answer? = some (.error fault) →
      e.next.memory = e.machine.memory) ∧
    (∀ (q : Pacer) (call : Call), call.runs = false → (q.exchange call).loads = false →
      (q.perform call).2.machine.memory = q.machine.memory) := by
  intro start trace memory
  have hquiet : ∀ e : Moment, e.loads = false → e.store? = none →
      e.next.memory = e.machine.memory := by
    intro e hl hs
    rw [Moment.memory_next hl, hs]
    rfl
  refine ⟨?_, fun _ _ => Moment.store?_eq_some_iff, fun _ _ h => h.in_memory, ?_, ?_, ?_⟩
  · intro address ha
    have himage : start.machine.memory[address]? = some (Memory.initial rom address) := by
      have hload : start.machine.memory = Memory.image rom := by
        show (p.perform (.load rom)).2.machine.memory = _
        rw [machine_load hfit]
        rfl
      rw [hload, Memory.getElem?_image_eq rom ha]
    show (start.performAll calls).machine.memory[address]? = _
    rw [machine_performAll, Machine.getElem?_memory_actAll (loads_of_exchanges hloads) ha, himage,
      Option.or_some]
    rfl
  · intro e hl hstores
    apply hquiet e hl
    rw [Option.eq_none_iff_forall_not_mem]
    intro s hs
    exact hstores s (Moment.store?_eq_some_iff.mp hs)
  · intro e fault h
    apply hquiet e (Moment.loads_of_answer? h)
    rw [Moment.store?, Moment.instruction?_of_error h]
  · intro q call hruns hl
    exact (rests_perform hruns hl).memory

/-- The digits of 254, and then two registers over the first two of them. -/
theorem memory_law_overlapping :
    let rom : List UInt8 :=
      [0xA3, 0x00, 0x60, 0xFE, 0xF0, 0x33, 0x61, 0x07, 0xF1, 0x55, 0x00, 0xEE]
    let calls : List Call := [.step, .cycle, .step, .press 3, .runFrame, .step, .step, .tick]
    let start := ((ofSeed 0).perform (.load rom)).2
    let memory := (start.performAll calls).machine.memory
    rom.length ≤ 3584 ∧ (∀ e ∈ start.exchanges calls, e.loads = false) ∧
      memory[0x300]? = some 0xFE ∧ memory[0x301]? = some 7 ∧ memory[0x302]? = some 4 ∧
        memory[0x4]? = some 0xF0 := by
  intro rom calls start memory
  have hfit : rom.length ≤ 3584 := by decide
  obtain ⟨hloads, hfirst, hsecond, hthird, hglyph⟩ :
      (∀ e ∈ start.exchanges calls, e.loads = false) ∧
        Moment.lastStored? (start.moments calls) 0x300 = some 0xFE ∧
        Moment.lastStored? (start.moments calls) 0x301 = some 7 ∧
        Moment.lastStored? (start.moments calls) 0x302 = some 4 ∧
        Moment.lastStored? (start.moments calls) 0x4 = none := by decide +kernel
  have law := (memory_law (ofSeed 0) rom calls hfit hloads).1
  refine ⟨hfit, hloads, ?_, ?_, ?_, ?_⟩
  · rw [law 0x300 (by decide), hfirst, Option.getD_some]
  · rw [law 0x301 (by decide), hsecond, Option.getD_some]
  · rw [law 0x302 (by decide), hthird, Option.getD_some]
  · rw [law 0x4 (by decide), hglyph, Option.getD_none]
    rfl

end Pacer

end Chip8
