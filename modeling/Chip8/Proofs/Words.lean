import Chip8.Instruction

/-!
# Words and instructions

Reading a word and writing an instruction undo each other.

* `ofWord_toWord`: an instruction is read back from its word. Excepted are a `0nnn` that stands at
  the place of `00E0` or `00EE`, and an `unknown` with a word that has a meaning.
* `toWord_ofWord`: a word is written back from its instruction. Excepted are the register
  comparisons, which drop their last digit; with that digit every word is (`toWordWith_ofWord`).
* `ofWord_eq_unknown_iff`: the words without a meaning are those of `Unassigned`, and each becomes
  an `unknown` with itself.

All three rest on the parts of a word: a word is put together again from its parts, and the parts
are read off a word that was put together.
-/

namespace Chip8.Instruction

/-! ## A word from its parts -/

theorem groupOf_lt (w : UInt16) : groupOf w < 16 := by
  have := w.toNat_lt
  unfold groupOf
  omega

theorem addressWord_addressOf {w : UInt16} {group : Nat} (h : groupOf w = group) :
    addressWord group (addressOf w) = w := by
  have := w.toNat_lt
  subst h
  apply UInt16.toNat_inj.mp
  simp only [addressWord, addressOf, groupOf, Memory.size, Fin.ofNat, UInt16.toNat_ofNat']
  omega

theorem byteWord_byteOf {w : UInt16} {group : Nat} (h : groupOf w = group) :
    byteWord group (xOf w) (byteOf w).toNat = w := by
  have := w.toNat_lt
  subst h
  apply UInt16.toNat_inj.mp
  simp only [byteWord, xOf, byteOf, groupOf, Fin.ofNat, UInt16.toNat_ofNat', UInt8.toNat_ofNat']
  omega

theorem registerWord_nOf {w : UInt16} {group : Nat} (h : groupOf w = group) :
    registerWord group (xOf w) (yOf w) (nOf w) = w := by
  have := w.toNat_lt
  subst h
  apply UInt16.toNat_inj.mp
  simp only [registerWord, xOf, yOf, nOf, groupOf, Fin.ofNat, UInt16.toNat_ofNat']
  omega

/-! ## The parts of a word -/

section parts

variable {group nn n : Nat} (x y : Nibble) (target : Address)

theorem groupOf_addressWord (hg : group < 16) : groupOf (addressWord group target) = group := by
  have : target.val < 4096 := target.isLt
  simp only [groupOf, addressWord, UInt16.toNat_ofNat']
  omega

theorem addressOf_addressWord : addressOf (addressWord group target) = target := by
  have : target.val < 4096 := target.isLt
  apply Fin.ext
  simp only [addressOf, addressWord, UInt16.toNat_ofNat', Memory.size, Fin.ofNat]
  omega

theorem groupOf_byteWord (hg : group < 16) (hn : nn < 256) :
    groupOf (byteWord group x nn) = group := by
  have := x.isLt
  simp only [groupOf, byteWord, UInt16.toNat_ofNat']
  omega

theorem xOf_byteWord (hn : nn < 256) : xOf (byteWord group x nn) = x := by
  have := x.isLt
  apply Fin.ext
  simp only [xOf, byteWord, UInt16.toNat_ofNat', Fin.ofNat]
  omega

theorem byteOf_byteWord : byteOf (byteWord group x nn) = UInt8.ofNat nn := by
  have := x.isLt
  apply UInt8.toNat_inj.mp
  simp only [byteOf, byteWord, UInt16.toNat_ofNat', UInt8.toNat_ofNat']
  omega

theorem groupOf_registerWord (hg : group < 16) (hn : n < 16) :
    groupOf (registerWord group x y n) = group := by
  have := x.isLt
  have := y.isLt
  simp only [groupOf, registerWord, UInt16.toNat_ofNat']
  omega

theorem xOf_registerWord (hn : n < 16) : xOf (registerWord group x y n) = x := by
  have := x.isLt
  have := y.isLt
  apply Fin.ext
  simp only [xOf, registerWord, UInt16.toNat_ofNat', Fin.ofNat]
  omega

theorem yOf_registerWord (hn : n < 16) : yOf (registerWord group x y n) = y := by
  have := y.isLt
  apply Fin.ext
  simp only [yOf, registerWord, UInt16.toNat_ofNat', Fin.ofNat]
  omega

theorem nOf_registerWord (hn : n < 16) : (nOf (registerWord group x y n)).val = n := by
  simp only [nOf, registerWord, UInt16.toNat_ofNat', Fin.ofNat]
  omega

end parts

/-! ## Words without a meaning -/

/-- The last two digits that select an instruction in group F. -/
def miscellaneous : List Nat := [0x07, 0x0A, 0x15, 0x18, 0x1E, 0x29, 0x33, 0x55, 0x65]

/-- The words that stand for no instruction. -/
inductive Unassigned : UInt16 → Prop where
  /-- `8xyN` with `N` from 8 to D, or F. -/
  | arithmetic (x y n : Nibble) (hn : 8 ≤ n.val ∧ n.val ≠ 0xE) :
      Unassigned (registerWord 0x8 x y n)
  /-- `Exkk` with `kk` neither 9E nor A1. -/
  | keys (x : Nibble) (kk : UInt8) (hk : kk.toNat ≠ 0x9E ∧ kk.toNat ≠ 0xA1) :
      Unassigned (byteWord 0xE x kk.toNat)
  /-- `Fxkk` with any other `kk` than the nine of the group. -/
  | miscellaneous (x : Nibble) (kk : UInt8) (hk : kk.toNat ∉ miscellaneous) :
      Unassigned (byteWord 0xF x kk.toNat)

theorem arithmeticOf?_eq_none_iff (n : Nibble) :
    arithmeticOf? n = none ↔ 8 ≤ n.val ∧ n.val ≠ 0xE := by
  revert n
  decide

theorem ofWord_of_unassigned {w : UInt16} (h : Unassigned w) : ofWord w = .unknown w := by
  cases h with
  | arithmetic x y n hn =>
    simp (disch := omega) only [ofWord, groupOf_registerWord, nOf_registerWord,
      (arithmeticOf?_eq_none_iff n).mpr hn]
  | keys x kk hk =>
    have := kk.toNat_lt
    simp (disch := omega) only [ofWord, groupOf_byteWord, byteOf_byteWord, UInt8.ofNat_toNat]
  | miscellaneous x kk hk =>
    have := kk.toNat_lt
    simp (disch := omega) only [ofWord, groupOf_byteWord, byteOf_byteWord, UInt8.ofNat_toNat]
    split
    case h_10 => rfl
    all_goals
      next h =>
        rw [h] at hk
        exact absurd (by decide) hk

/-- What is read back from its word: all but a `0nnn` at the place of another instruction and an
`unknown` with a word that has a meaning. -/
def Readable : Instruction → Prop
  | .sys target => target.val ≠ 0x0E0 ∧ target.val ≠ 0x0EE
  | .unknown word => Unassigned word
  | _ => True

theorem ofWord_toWord {i : Instruction} (h : i.Readable) : ofWord i.toWord = i := by
  cases i
  case sys target =>
    have hv : (addressWord 0x0 target).toNat = target.val := by
      have : target.val < 4096 := target.isLt
      simp only [addressWord, UInt16.toNat_ofNat']
      omega
    have hclear : addressWord 0x0 target ≠ 0x00E0 := fun he => h.1 (by rw [← hv, he]; rfl)
    have hret : addressWord 0x0 target ≠ 0x00EE := fun he => h.2 (by rw [← hv, he]; rfl)
    simp (disch := omega) only [toWord, ofWord, groupOf_addressWord, addressOf_addressWord]
    rw [if_neg hclear, if_neg hret]
  case jump | jumpOffset | call | setIndex =>
    simp (disch := omega) only [toWord, ofWord, groupOf_addressWord, addressOf_addressWord]
  case clear | ret => rfl
  case arithmetic op x y =>
    have hn : digitOf op < 16 := by cases op <;> decide
    have hop : arithmeticOf? (digitOf op) = some op := by cases op <;> rfl
    simp (disch := omega) only [toWord, ofWord, groupOf_registerWord, nOf_registerWord,
      xOf_registerWord, yOf_registerWord, hop]
  case skipEqReg | skipNeReg =>
    simp (disch := omega) only [toWord, ofWord, groupOf_registerWord, xOf_registerWord,
      yOf_registerWord]
  case draw x y n =>
    simp (disch := omega) only [toWord, ofWord, groupOf_registerWord, xOf_registerWord,
      yOf_registerWord]
    rw [Fin.ext (nOf_registerWord x y n.isLt)]
  case unknown w => exact ofWord_of_unassigned h
  case skipEqByte x nn | skipNeByte x nn | setByte x nn | addByte x nn | random x nn =>
    have := nn.toNat_lt
    simp (disch := omega) only [toWord, ofWord, groupOf_byteWord, xOf_byteWord, byteOf_byteWord,
      UInt8.ofNat_toNat]
  all_goals
    simp (disch := omega) only [toWord, ofWord, groupOf_byteWord, xOf_byteWord, byteOf_byteWord]
    rfl

/-! ## Reading and writing again -/

/-- Whether the last digit of its words has no meaning. -/
def dropsDigit : Instruction → Bool
  | .skipEqReg .. | .skipNeReg .. => true
  | _ => false

theorem digitOf_of_arithmeticOf? {n : Nat} {op : Arithmetic} (h : arithmeticOf? n = some op) :
    digitOf op = n := by
  unfold arithmeticOf? at h
  split at h <;> cases h <;> rfl

theorem toWord_ofWord {w : UInt16} (h : (ofWord w).dropsDigit = false) :
    (ofWord w).toWord = w := by
  have hlt := groupOf_lt w
  revert h
  unfold ofWord
  split
  case h_1 hg =>
    split
    · next hw => intro _; exact hw.symm
    · split
      · next hw => intro _; exact hw.symm
      · intro _; exact addressWord_addressOf hg
  case h_9 hg =>
    split
    · next op hop =>
      intro _
      rw [toWord, digitOf_of_arithmeticOf? hop]
      exact registerWord_nOf hg
    · intro _; rfl
  case h_15 hg =>
    have key := byteWord_byteOf hg
    split
    · next hb => intro _; rw [hb] at key; exact key
    · next hb => intro _; rw [hb] at key; exact key
    · intro _; rfl
  case h_16 =>
    have hg : groupOf w = 0xF := by grind
    have key := byteWord_byteOf hg
    split
    case h_10 => intro _; rfl
    all_goals next hb => intro _; rw [hb] at key; exact key
  case h_2 hg | h_3 hg | h_11 hg | h_12 hg => intro _; exact addressWord_addressOf hg
  case h_4 hg | h_5 hg | h_7 hg | h_8 hg | h_13 hg => intro _; exact byteWord_byteOf hg
  case h_14 hg => intro _; exact registerWord_nOf hg
  case h_6 | h_10 => intro h; cases h

theorem unassigned_of_ofWord {w word : UInt16} (h : ofWord w = .unknown word) :
    word = w ∧ Unassigned w := by
  have hlt := groupOf_lt w
  unfold ofWord at h
  split at h
  case h_9 hg =>
    split at h
    · cases h
    · next hn =>
      cases h
      rw [← registerWord_nOf hg]
      exact ⟨rfl, .arithmetic _ _ _ ((arithmeticOf?_eq_none_iff _).mp hn)⟩
  case h_15 hg =>
    split at h
    case h_3 h1 h2 =>
      cases h
      rw [← byteWord_byteOf hg]
      exact ⟨rfl, .keys _ _ ⟨h1, h2⟩⟩
    all_goals cases h
  case h_16 =>
    have hg : groupOf w = 0xF := by grind
    split at h
    case h_10 =>
      cases h
      rw [← byteWord_byteOf hg]
      refine ⟨rfl, .miscellaneous _ _ ?_⟩
      simp only [miscellaneous, List.mem_cons, List.not_mem_nil, not_or]
      refine ⟨?_, ?_, ?_, ?_, ?_, ?_, ?_, ?_, ?_, not_false⟩ <;> assumption
    all_goals cases h
  case h_1 =>
    split at h
    · cases h
    · split at h <;> cases h
  all_goals cases h

/-- The word of an instruction, with `n` for a digit without a meaning. -/
def toWordWith (n : Nibble) : Instruction → UInt16
  | .skipEqReg x y => registerWord 0x5 x y n
  | .skipNeReg x y => registerWord 0x9 x y n
  | i => i.toWord

theorem toWordWith_of_keeps {i : Instruction} (h : i.dropsDigit = false) (n : Nibble) :
    i.toWordWith n = i.toWord := by
  cases i
  case skipEqReg | skipNeReg => cases h
  all_goals rfl

/-- Every word is written back from its instruction and its last digit. -/
theorem toWordWith_ofWord (w : UInt16) : (ofWord w).toWordWith (nOf w) = w := by
  cases hd : (ofWord w).dropsDigit with
  | false =>
    rw [toWordWith_of_keeps hd]
    exact toWord_ofWord hd
  | true =>
    revert hd
    unfold ofWord
    split
    case h_6 hg | h_10 hg => exact fun _ => registerWord_nOf hg
    all_goals
      repeat' split
      all_goals
        intro hd
        cases hd

theorem ofWord_toWordWith {i : Instruction} (h : i.Readable) (n : Nibble) :
    ofWord (i.toWordWith n) = i := by
  cases hd : i.dropsDigit with
  | false => rw [toWordWith_of_keeps hd, ofWord_toWord h]
  | true =>
    cases i
    case skipEqReg x y | skipNeReg x y =>
      have hn := n.isLt
      simp (disch := omega) only [toWordWith, ofWord, groupOf_registerWord, xOf_registerWord,
        yOf_registerWord]
    all_goals cases hd

/-- What a word is read as, can be read back. -/
theorem readable_ofWord (w : UInt16) : (ofWord w).Readable := by
  cases hi : ofWord w
  case sys target =>
    have hw : addressWord 0x0 target = w := by
      have h := toWordWith_ofWord w
      rwa [hi] at h
    constructor
    · intro ht
      have : w = 0x00E0 := by rw [← hw, addressWord, ht]; rfl
      rw [this] at hi
      cases hi
    · intro ht
      have : w = 0x00EE := by rw [← hw, addressWord, ht]; rfl
      rw [this] at hi
      cases hi
  case unknown word =>
    obtain ⟨rfl, h⟩ := unassigned_of_ofWord hi
    exact h
  all_goals exact trivial

/-- The words without a meaning are read as `unknown`, and no others. -/
theorem ofWord_eq_unknown_iff {w word : UInt16} :
    ofWord w = .unknown word ↔ word = w ∧ Unassigned w := by
  constructor
  · exact unassigned_of_ofWord
  · rintro ⟨rfl, h⟩
    exact ofWord_of_unassigned h

end Chip8.Instruction
