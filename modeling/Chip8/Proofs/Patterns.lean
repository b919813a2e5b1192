import Chip8.Proofs.Faults

/-!
# The patterns of words

The table of instructions as patterns of four digits, some of them given and the others left open.
Two patterns overlap if none of their digits contradict each other (`Pattern.Agrees`), and as that
can be seen from the patterns, questions about all words become questions about a few patterns.

* `eq_or_inside_of_matches`: a word has one pattern, but `00E0` and `00EE` also have `0nnn`.
* `matches_of_pattern?_ofWord`: a word has the pattern of its instruction.
* `unassigned_iff`: the words without a meaning are those without a pattern.
* `decoding_law`: what a step fetches and reads, and that reading undoes writing.
-/

namespace Chip8

/-- A place of a pattern: a digit that must stand there, or any digit. -/
inductive Slot where
  | fixed (digit : Nat)
  | any
deriving DecidableEq, Repr

/-- The digit may stand at the place. -/
def Slot.Admits (digit : Nat) : Slot → Prop
  | .fixed d => digit = d
  | .any => True

/-- There is a digit that may stand at both places. -/
def Slot.Agrees : Slot → Slot → Prop
  | .fixed d, .fixed e => d = e
  | _, _ => True

/-- A pattern of words, digit by digit. -/
structure Pattern where
  first : Slot
  second : Slot
  third : Slot
  fourth : Slot
deriving DecidableEq, Repr

namespace Pattern

/-- The word has the digits that the pattern gives. -/
def Matches (p : Pattern) (w : UInt16) : Prop :=
  p.first.Admits (w.toNat / 4096) ∧ p.second.Admits (w.toNat / 256 % 16) ∧
    p.third.Admits (w.toNat / 16 % 16) ∧ p.fourth.Admits (w.toNat % 16)

/-- No digit is given differently in the two patterns. -/
def Agrees (p q : Pattern) : Prop :=
  p.first.Agrees q.first ∧ p.second.Agrees q.second ∧ p.third.Agrees q.third ∧
    p.fourth.Agrees q.fourth

/-- All digits are given. -/
def exactly (first second third fourth : Nat) : Pattern :=
  ⟨.fixed first, .fixed second, .fixed third, .fixed fourth⟩

/-- The first digit is given. -/
def ofGroup (group : Nat) : Pattern := ⟨.fixed group, .any, .any, .any⟩

/-- The first digit and the last one are given. -/
def ofDigit (group n : Nat) : Pattern := ⟨.fixed group, .any, .any, .fixed n⟩

/-- The first digit and the last two are given. -/
def ofByte (group kk : Nat) : Pattern := ⟨.fixed group, .any, .fixed (kk / 16), .fixed (kk % 16)⟩

/-- The patterns of all instructions: `00E0` and `00EE`, the groups that the first digit selects
alone, and those of groups 8, E and F. The last digit of groups 5 and 9 may be any. -/
def table : List Pattern :=
  [exactly 0x0 0x0 0xE 0x0, exactly 0x0 0x0 0xE 0xE] ++
  [0x0, 0x1, 0x2, 0x3, 0x4, 0x5, 0x6, 0x7, 0x9, 0xA, 0xB, 0xC, 0xD].map ofGroup ++
  [0x0, 0x1, 0x2, 0x3, 0x4, 0x5, 0x6, 0x7, 0xE].map (ofDigit 0x8) ++
  [0x9E, 0xA1].map (ofByte 0xE) ++
  [0x07, 0x0A, 0x15, 0x18, 0x1E, 0x29, 0x33, 0x55, 0x65].map (ofByte 0xF)

end Pattern

/-! ## Patterns that agree -/

instance (digit : Nat) : (s : Slot) → Decidable (s.Admits digit)
  | .fixed d => inferInstanceAs (Decidable (digit = d))
  | .any => inferInstanceAs (Decidable True)

instance : (s t : Slot) → Decidable (s.Agrees t)
  | .fixed d, .fixed e => inferInstanceAs (Decidable (d = e))
  | .fixed _, .any => inferInstanceAs (Decidable True)
  | .any, .fixed _ => inferInstanceAs (Decidable True)
  | .any, .any => inferInstanceAs (Decidable True)

theorem Slot.agrees_of_admits {s t : Slot} {digit : Nat} (hs : s.Admits digit)
    (ht : t.Admits digit) : s.Agrees t := by
  cases s <;> cases t
  case fixed.fixed d e => exact hs.symm.trans ht
  all_goals trivial

namespace Pattern

instance (p : Pattern) (w : UInt16) : Decidable (p.Matches w) :=
  inferInstanceAs (Decidable (_ ∧ _ ∧ _ ∧ _))

instance (p q : Pattern) : Decidable (p.Agrees q) := inferInstanceAs (Decidable (_ ∧ _ ∧ _ ∧ _))

/-- Patterns with a word in common agree. -/
theorem agrees_of_matches {p q : Pattern} {w : UInt16} (hp : p.Matches w) (hq : q.Matches w) :
    p.Agrees q :=
  ⟨Slot.agrees_of_admits hp.1 hq.1, Slot.agrees_of_admits hp.2.1 hq.2.1,
    Slot.agrees_of_admits hp.2.2.1 hq.2.2.1, Slot.agrees_of_admits hp.2.2.2 hq.2.2.2⟩

/-- `p` is the pattern of `00E0` or `00EE`, and `q` that of `0nnn`. -/
def Inside (p q : Pattern) : Prop :=
  (p = exactly 0x0 0x0 0xE 0x0 ∨ p = exactly 0x0 0x0 0xE 0xE) ∧ q = ofGroup 0x0

instance (p q : Pattern) : Decidable (p.Inside q) := inferInstanceAs (Decidable ((_ ∨ _) ∧ _))

/-- A word has one pattern of the table, or else it is `00E0` or `00EE`. -/
theorem eq_or_inside_of_matches {p q : Pattern} {w : UInt16} (hp : p ∈ table) (hq : q ∈ table)
    (hpw : p.Matches w) (hqw : q.Matches w) : p = q ∨ p.Inside q ∨ q.Inside p := by
  have hagree := agrees_of_matches hpw hqw
  have htable : ∀ p ∈ table, ∀ q ∈ table, p.Agrees q → p = q ∨ p.Inside q ∨ q.Inside p := by
    decide +kernel
  exact htable p hp q hq hagree

end Pattern

namespace Instruction

open Pattern

/-! ## The pattern of an instruction -/

/-- The pattern that the words of an instruction have in common. -/
def pattern? : Instruction → Option Pattern
  | .sys _ => some (ofGroup 0x0)
  | .jump _ => some (ofGroup 0x1)
  | .jumpOffset _ => some (ofGroup 0xB)
  | .call _ => some (ofGroup 0x2)
  | .ret => some (exactly 0x0 0x0 0xE 0xE)
  | .skipEqByte .. => some (ofGroup 0x3)
  | .skipNeByte .. => some (ofGroup 0x4)
  | .skipEqReg .. => some (ofGroup 0x5)
  | .skipNeReg .. => some (ofGroup 0x9)
  | .setByte .. => some (ofGroup 0x6)
  | .addByte .. => some (ofGroup 0x7)
  | .setIndex _ => some (ofGroup 0xA)
  | .addIndex _ => some (ofByte 0xF 0x1E)
  | .arithmetic op _ _ => some (ofDigit 0x8 (digitOf op))
  | .random .. => some (ofGroup 0xC)
  | .clear => some (exactly 0x0 0x0 0xE 0x0)
  | .draw .. => some (ofGroup 0xD)
  | .skipHeld _ => some (ofByte 0xE 0x9E)
  | .skipNotHeld _ => some (ofByte 0xE 0xA1)
  | .waitKey _ => some (ofByte 0xF 0x0A)
  | .readDelay _ => some (ofByte 0xF 0x07)
  | .setDelay _ => some (ofByte 0xF 0x15)
  | .setSound _ => some (ofByte 0xF 0x18)
  | .glyph _ => some (ofByte 0xF 0x29)
  | .decimal _ => some (ofByte 0xF 0x33)
  | .store _ => some (ofByte 0xF 0x55)
  | .load _ => some (ofByte 0xF 0x65)
  | .unknown _ => none

theorem pattern?_eq_none_iff {i : Instruction} :
    i.pattern? = none ↔ ∃ word, i = .unknown word := by
  cases i
  case unknown word => exact ⟨fun _ => ⟨word, rfl⟩, fun _ => rfl⟩
  all_goals exact ⟨nofun, nofun⟩

theorem mem_table_of_pattern? {i : Instruction} {p : Pattern} (h : i.pattern? = some p) :
    p ∈ table := by
  cases i
  case unknown => cases h
  case arithmetic op x y =>
    cases h
    cases op <;> decide
  all_goals
    cases h
    decide

section matching

variable {group nn n : Nat} (x y : Nibble)

theorem matches_addressWord (target : Address) (hg : group < 16) :
    (ofGroup group).Matches (addressWord group target) :=
  ⟨groupOf_addressWord target hg, trivial, trivial, trivial⟩

theorem matches_byteWord (hg : group < 16) (hn : nn < 256) :
    (ofGroup group).Matches (byteWord group x nn) :=
  ⟨groupOf_byteWord x hg hn, trivial, trivial, trivial⟩

theorem matches_registerWord (hg : group < 16) (hn : n < 16) :
    (ofGroup group).Matches (registerWord group x y n) :=
  ⟨groupOf_registerWord x y hg hn, trivial, trivial, trivial⟩

theorem matches_ofDigit (hg : group < 16) (hn : n < 16) :
    (ofDigit group n).Matches (registerWord group x y n) :=
  ⟨groupOf_registerWord x y hg hn, trivial, trivial, nOf_registerWord x y hn⟩

theorem matches_ofByte (hg : group < 16) (hn : nn < 256) :
    (ofByte group nn).Matches (byteWord group x nn) := by
  have hx := x.isLt
  refine ⟨groupOf_byteWord x hg hn, trivial, ?_, ?_⟩
  · show (byteWord group x nn).toNat / 16 % 16 = nn / 16
    simp only [byteWord, UInt16.toNat_ofNat']
    omega
  · show (byteWord group x nn).toNat % 16 = nn % 16
    simp only [byteWord, UInt16.toNat_ofNat']
    omega

end matching

/-- The words of an instruction have its pattern, whatever digit is written for one without a
meaning. -/
theorem matches_toWordWith {i : Instruction} {p : Pattern} (h : i.pattern? = some p) (n : Nibble) :
    p.Matches (i.toWordWith n) := by
  cases i
  case unknown => cases h
  all_goals cases h
  case clear | ret =>
    revert n
    decide
  case sys | jump | jumpOffset | call | setIndex => exact matches_addressWord _ (by decide)
  case skipEqByte | skipNeByte | setByte | addByte | random =>
    exact matches_byteWord _ (by decide) (UInt8.toNat_lt _)
  case skipEqReg | skipNeReg | draw => exact matches_registerWord _ _ (by decide) (Fin.isLt _)
  case arithmetic op x y => exact matches_ofDigit x y (by decide) (by cases op <;> decide)
  all_goals exact matches_ofByte _ (by decide) (by decide)

/-- A word has the pattern of its instruction. -/
theorem matches_of_pattern?_ofWord {w : UInt16} {p : Pattern} (h : (ofWord w).pattern? = some p) :
    p.Matches w := by
  have hmatch := matches_toWordWith h (nOf w)
  rwa [toWordWith_ofWord] at hmatch

/-! ## Words without a pattern -/

theorem not_matches_of_unassigned {w : UInt16} (h : Unassigned w) : ∀ p ∈ table, ¬ p.Matches w := by
  -- the digits that make the word unassigned are a pattern, which agrees with none of the table
  intro p hp hpw
  cases h with
  | arithmetic x y n hn =>
    have hapart : ∀ n : Nibble, 8 ≤ n.val ∧ n.val ≠ 0xE → ∀ p ∈ table,
        ¬ p.Agrees (ofDigit 0x8 n) := by
      decide +kernel
    exact hapart n hn p hp (agrees_of_matches hpw (matches_ofDigit x y (by decide) n.isLt))
  | keys x kk hk =>
    have hapart : ∀ kk < 256, kk ≠ 0x9E ∧ kk ≠ 0xA1 → ∀ p ∈ table,
        ¬ p.Agrees (ofByte 0xE kk) := by
      decide +kernel
    exact hapart kk.toNat kk.toNat_lt hk p hp
      (agrees_of_matches hpw (matches_ofByte x (by decide) kk.toNat_lt))
  | miscellaneous x kk hk =>
    have hapart : ∀ kk < 256, kk ∉ miscellaneous → ∀ p ∈ table, ¬ p.Agrees (ofByte 0xF kk) := by
      decide +kernel
    exact hapart kk.toNat kk.toNat_lt hk p hp
      (agrees_of_matches hpw (matches_ofByte x (by decide) kk.toNat_lt))

/-- The words without a meaning are those without a pattern. -/
theorem unassigned_iff {w : UInt16} : Unassigned w ↔ ∀ p ∈ table, ¬ p.Matches w := by
  refine ⟨not_matches_of_unassigned, fun h => ?_⟩
  cases hp : (ofWord w).pattern? with
  | some p => exact absurd (matches_of_pattern?_ofWord hp) (h p (mem_table_of_pattern? hp))
  | none =>
    obtain ⟨word, hw⟩ := pattern?_eq_none_iff.mp hp
    exact (unassigned_of_ofWord hw).2

/-! ## Writing a word again -/

theorem group_of_dropsDigit {w : UInt16} (hd : (ofWord w).dropsDigit = true) :
    groupOf w = 0x5 ∨ groupOf w = 0x9 := by
  cases hi : ofWord w
  all_goals rw [hi] at hd
  case skipEqReg x y => exact .inl (matches_of_pattern?_ofWord (congrArg pattern? hi)).1
  case skipNeReg x y => exact .inr (matches_of_pattern?_ofWord (congrArg pattern? hi)).1
  all_goals cases hd

theorem toNat_registerWord_zero (w : UInt16) :
    (registerWord (groupOf w) (xOf w) (yOf w) 0).toNat = 16 * (w.toNat / 16) := by
  have := w.toNat_lt
  simp only [registerWord, groupOf, xOf, yOf, Fin.ofNat, UInt16.toNat_ofNat']
  omega

/-- A word is written back from its instruction, but the last digit of groups 5 and 9 becomes
a 0. -/
theorem toNat_toWord_ofWord (w : UInt16) :
    (ofWord w).toWord.toNat =
      if w.toNat / 4096 = 0x5 ∨ w.toNat / 4096 = 0x9 then 16 * (w.toNat / 16) else w.toNat := by
  split
  · next hg =>
    rw [← toNat_registerWord_zero]
    rcases hg with (hg : groupOf w = 0x5) | (hg : groupOf w = 0x9)
    all_goals simp only [ofWord, hg, toWord]
  · next hg =>
    have hd : (ofWord w).dropsDigit = false :=
      Bool.eq_false_iff.mpr fun hd => hg (group_of_dropsDigit hd)
    rw [toWord_ofWord hd]

theorem readable_of {i : Instruction}
    (hsys : ∀ target, i = .sys target → target.val ≠ 0x0E0 ∧ target.val ≠ 0x0EE)
    (hunknown : ∀ word, i = .unknown word → ∀ p ∈ table, ¬ p.Matches word) : i.Readable := by
  cases i
  case sys target => exact hsys target rfl
  case unknown word => exact unassigned_iff.mpr (hunknown word rfl)
  all_goals trivial

end Instruction

namespace Machine

open Instruction Pattern

/-! ## Fetching and reading -/

/-- A step carries out the instruction at the program counter. If that faults, nothing but the
pause is left of it. -/
theorem step_of_wordAtPc {m : Machine} {word : UInt16} (hp : m.paused = false)
    (hw : m.WordAtPc word) :
    m.step.1 = (m.execute (.ofWord word)).1 ∧
    (∀ outcome, m.step.1 = .ok outcome → m.step.2 = (m.execute (.ofWord word)).2) ∧
    ∀ fault, m.step.1 = .error fault → m.step.2 = { m with paused := true } := by
  refine ⟨?_, fun outcome h => ?_, fun fault h => step_of_error h⟩
  · cases hf : m.faultOf (.ofWord word) with
    | none => rw [step_eq_after hp (fetch_of_wordAtPc hw) hf, execute_eq_after hf]
    | some fault =>
      have hn : m.nextFault = some fault := by
        rw [nextFault, fetch_of_wordAtPc hw]
        exact hf
      rw [step_of_fault hp hn, execute_of_fault hf]
  · obtain ⟨word', hfetch, hf, _, hs⟩ := exists_of_step_ok hp h
    obtain rfl : word = word' := Except.ok.inj ((fetch_of_wordAtPc hw).symm.trans hfetch)
    rw [hs, execute_eq_after hf]

/-- A step reads two bytes as a word, the first one as its high half, and carries out the
instruction of the word. Reading and writing undo each other: a word is written from its instruction
again, without the last digit of a register comparison, and an instruction is read from its words
again, unless they are those of another one. The words of an instruction have its pattern. No other
words than `00E0` and `00EE` have two patterns, and those without one are read as `unknown`. -/
theorem decoding_law (m : Machine) (w : UInt16) (i : Instruction) :
    (m.paused = false → m.pc.toNat ≤ 4094 → ∃ high low word,
      m.memory[m.pc.toNat]? = some high ∧ m.memory[m.pc.toNat + 1]? = some low ∧
      word.toNat = 256 * high.toNat + low.toNat ∧
      m.step.1 = (m.execute (.ofWord word)).1 ∧
      (∀ outcome, m.step.1 = .ok outcome → m.step.2 = (m.execute (.ofWord word)).2) ∧
      ∀ fault, m.step.1 = .error fault → m.step.2 = { m with paused := true }) ∧
    (ofWord w).toWord.toNat =
      (if w.toNat / 4096 = 0x5 ∨ w.toNat / 4096 = 0x9 then 16 * (w.toNat / 16) else w.toNat) ∧
    ((∀ target, i = .sys target → target.val ≠ 0x0E0 ∧ target.val ≠ 0x0EE) →
      (∀ word, i = .unknown word → ∀ p ∈ table, ¬ p.Matches word) →
      ofWord i.toWord = i ∧ ∀ n, ofWord (i.toWordWith n) = i) ∧
    (∀ p n, i.pattern? = some p → p ∈ table ∧ p.Matches (i.toWordWith n)) ∧
    (∀ p ∈ table, ∀ q ∈ table, p.Matches w → q.Matches w → p = q ∨ p.Inside q ∨ q.Inside p) ∧
    ∀ word, ofWord w = .unknown word ↔ word = w ∧ ∀ p ∈ table, ¬ p.Matches w := by
  refine ⟨fun hp hpc => ?_, toNat_toWord_ofWord w,
    fun hsys hunknown => ⟨ofWord_toWord (readable_of hsys hunknown),
      ofWord_toWordWith (readable_of hsys hunknown)⟩,
    fun p n h => ⟨mem_table_of_pattern? h, matches_toWordWith h n⟩,
    fun p hp q hq => eq_or_inside_of_matches hp hq, fun word => ?_⟩
  · obtain ⟨word, hw⟩ := exists_wordAtPc (m := m) (Nat.lt_succ_of_le (Nat.succ_le_succ hpc))
    obtain ⟨high, low, hhigh, hlow, hword⟩ := id hw
    refine ⟨high, low, word, hhigh, hlow, ?_, step_of_wordAtPc hp hw⟩
    have := high.toNat_lt
    have := low.toNat_lt
    rw [hword, wordOf, UInt16.toNat_ofNat']
    omega
  · rw [ofWord_eq_unknown_iff, unassigned_iff]

/-- The word `00E0`, which has two patterns, and `8128`, which has none. -/
theorem decoding_law_clear :
    let m := boot [0x00, 0xE0] minSpeed { key := .ofSeed 0 }
    m.paused = false ∧ m.pc.toNat ≤ 4094 ∧ m.step.1 = (m.execute .clear).1 ∧
      (ofWord 0x00E0).toWord.toNat = 0x00E0 ∧ ofWord 0x8128 = .unknown 0x8128 ∧
      (exactly 0x0 0x0 0xE 0x0).Inside (ofGroup 0x0) := by
  intro m
  have hm : m.paused = false ∧ m.pc.toNat ≤ 4094 := by decide
  obtain ⟨hstep, hword, hread, _, htwo, _⟩ := decoding_law m 0x00E0 (.unknown 0x8128)
  obtain ⟨high, low, word, hhigh, hlow, hsum, hanswer, _⟩ := hstep hm.1 hm.2
  have hbytes : m.memory[m.pc.toNat]? = some 0x00 ∧ m.memory[m.pc.toNat + 1]? = some 0xE0 := by
    decide +kernel
  obtain rfl : 0x00 = high := Option.some.inj (hbytes.1.symm.trans hhigh)
  obtain rfl : 0xE0 = low := Option.some.inj (hbytes.2.symm.trans hlow)
  obtain rfl : word = 0x00E0 := UInt16.toNat_inj.mp hsum
  have hnone : ∀ p ∈ table, ¬ p.Matches 0x8128 := by decide +kernel
  refine ⟨hm.1, hm.2, hanswer, hword, (hread nofun ?_).1, ?_⟩
  · rintro _ ⟨⟩
    exact hnone
  · have h := htwo (exactly 0x0 0x0 0xE 0x0) (by decide) (ofGroup 0x0) (by decide) (by decide)
      (by decide)
    exact (h.resolve_left (by decide)).resolve_right (by decide)

end Machine

end Chip8
