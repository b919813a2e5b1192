import Mathlib.Data.List.Forall2
import Mathlib.Data.Nat.Digits.Defs
import Chip8.Numeral

/-!
# Hexadecimal numerals

Which texts are read as hexadecimal numbers. Reading goes digit by digit and gives up at the first
one that takes the number over its limit; as digits only make a number larger, that is to say that
the number of the whole text is within the limit (`readDigits_eq_ok_iff`). So what is read is
exactly what the grammar of numerals admits (`IsHex`), if the number is small enough
(`read_sixteen_eq_ok_iff`).
-/

namespace Chip8.Numeral

/-- `c` is the hexadecimal digit of value `d`, a letter of either case from ten on. -/
def HexDigit (c : Char) (d : Nat) : Prop :=
  "0123456789abcdef".toList[d]? = some c ∨ "0123456789ABCDEF".toList[d]? = some c

instance (c : Char) (d : Nat) : Decidable (HexDigit c d) := inferInstanceAs (Decidable (_ ∨ _))

/-- `text` is a hexadecimal numeral of `n`: a plus sign or none, and then one or more digits, the
most significant first. -/
def IsHex (text : List Char) (n : Nat) : Prop :=
  ∃ sign digits : List Char, ∃ values : List Nat, text = sign ++ digits ∧
    (sign = [] ∨ sign = ['+']) ∧ digits ≠ [] ∧ List.Forall₂ HexDigit digits values ∧
    Nat.ofDigits 16 values.reverse = n

/-! ## Digits -/

theorem toNat_le_of_le {c d : Char} (h : c ≤ d) : c.toNat ≤ d.toNat := UInt32.le_iff_toNat_le.mp h

theorem HexDigit.bounds {c : Char} {d : Nat} (h : HexDigit c d) : c.toNat < 128 ∧ d < 16 := by
  have hall : ("0123456789abcdef".toList ++ "0123456789ABCDEF".toList).all (·.toNat < 128) := by
    decide
  rcases h with h | h
  all_goals
    refine ⟨of_decide_eq_true (List.all_eq_true.mp hall c ?_), (List.getElem?_eq_some_iff.mp h).1⟩
    simp only [List.mem_append, List.mem_of_getElem? h, true_or, or_true]

theorem bounds_of_digit? {c : Char} {d : Nat} (h : digit? 16 c = some d) :
    c.toNat < 128 ∧ d < 16 := by
  obtain ⟨hvalue, hd⟩ := Option.filter_eq_some_iff.mp h
  refine ⟨?_, of_decide_eq_true hd⟩
  unfold alphanumeric? at hvalue
  have hlast : ∀ last : Char, last.toNat < 128 → c ≤ last → c.toNat < 128 :=
    fun last hlast hle => Nat.lt_of_le_of_lt (toNat_le_of_le hle) hlast
  split at hvalue
  · next hc => exact hlast '9' (by decide) hc.2
  split at hvalue
  · next hc => exact hlast 'z' (by decide) hc.2
  split at hvalue
  · next hc => exact hlast 'Z' (by decide) hc.2
  · cases hvalue

theorem digit?_sixteen_eq_some_iff {c : Char} {d : Nat} : digit? 16 c = some d ↔ HexDigit c d := by
  have hall : ∀ n < 128, ∀ d < 16,
      (digit? 16 (Char.ofNat n) = some d ↔ HexDigit (Char.ofNat n) d) := by
    decide +kernel
  by_cases hc : c.toNat < 128 ∧ d < 16
  · have hdigit := hall c.toNat hc.1 d hc.2
    rwa [Char.ofNat_toNat] at hdigit
  · exact ⟨fun h => absurd (bounds_of_digit? h) hc, fun h => absurd h.bounds hc⟩

/-! ## Digits in a row -/

variable {base limit acc n : Nat}

/-- The number of digits that follow the number `acc`. -/
def numberFrom (base acc : Nat) (values : List Nat) : Nat :=
  values.foldl (fun n d => base * n + d) acc

theorem numberFrom_zero (base : Nat) (values : List Nat) :
    numberFrom base 0 values = Nat.ofDigits base values.reverse := by
  rw [Nat.ofDigits_eq_foldr, List.foldr_reverse]
  simp only [numberFrom, Nat.cast_id, Nat.add_comm]

theorem le_numberFrom (hbase : 0 < base) (acc : Nat) (values : List Nat) :
    acc ≤ numberFrom base acc values := by
  induction values generalizing acc with
  | nil => exact le_rfl
  | cons d values ih =>
    calc acc ≤ base * acc := Nat.le_mul_of_pos_left acc hbase
      _ ≤ base * acc + d := Nat.le_add_right _ _
      _ ≤ numberFrom base acc (d :: values) := ih _

/-- Digits are read if they are digits, and if their number is within the limit. -/
theorem readDigits_eq_ok_iff (hbase : 0 < base) (hacc : acc ≤ limit) {cs : List Char} :
    readDigits base limit acc cs = .ok n ↔
      ∃ values, List.Forall₂ (fun c d => digit? base c = some d) cs values ∧
        numberFrom base acc values = n ∧ n ≤ limit := by
  induction cs generalizing acc with
  | nil =>
    simp only [readDigits, List.forall₂_nil_left_iff, exists_eq_left, Except.ok.injEq]
    constructor
    · rintro rfl
      exact ⟨rfl, hacc⟩
    · exact fun h => h.1
  | cons c cs ih =>
    constructor
    · intro h
      rw [readDigits] at h
      split at h
      · cases h
      · next d hd =>
        split at h
        · next hle =>
          obtain ⟨values, hvalues, hn⟩ := (ih hle).mp h
          exact ⟨d :: values, .cons hd hvalues, hn⟩
        · cases h
    · rintro ⟨_, hall, hn, hlimit⟩
      obtain ⟨d, values, hd, hvalues, rfl⟩ := List.forall₂_cons_left_iff.mp hall
      -- the number so far is at most the whole number
      have hle : base * acc + d ≤ limit :=
        (le_numberFrom hbase _ values).trans (hn.trans_le hlimit)
      simp only [readDigits, hd, if_pos hle]
      exact (ih hle).mpr ⟨values, hvalues, hn, hlimit⟩

/-! ## Numerals -/

theorem read_plus_cons (c : Char) (cs : List Char) :
    read base limit ('+' :: c :: cs) = readDigits base limit 0 (c :: cs) := rfl

theorem read_cons_of_ne {c : Char} (hc : c ≠ '+') (cs : List Char) :
    read base limit (c :: cs) = readDigits base limit 0 (c :: cs) := by
  unfold read
  split <;> simp_all

theorem readDigits_sixteen_eq_ok_iff {cs : List Char} :
    readDigits 16 limit 0 cs = .ok n ↔
      ∃ values, List.Forall₂ HexDigit cs values ∧ Nat.ofDigits 16 values.reverse = n ∧
        n ≤ limit := by
  rw [readDigits_eq_ok_iff (by decide) (Nat.zero_le _)]
  simp only [numberFrom_zero, digit?_sixteen_eq_some_iff]

theorem HexDigit.ne_plus {c : Char} {d : Nat} (h : HexDigit c d) : c ≠ '+' := by
  rintro rfl
  have hnone : digit? 16 '+' = none := by decide
  rw [digit?_sixteen_eq_some_iff.mpr h] at hnone
  cases hnone

/-- What is read as a hexadecimal number of at most `limit` is a numeral of such a number. -/
theorem read_sixteen_eq_ok_iff {text : List Char} :
    read 16 limit text = .ok n ↔ IsHex text n ∧ n ≤ limit := by
  constructor
  · intro h
    have hdigits : ∃ sign digits : List Char, text = sign ++ digits ∧
        (sign = [] ∨ sign = ['+']) ∧ digits ≠ [] ∧ readDigits 16 limit 0 digits = .ok n := by
      unfold read at h
      split at h
      · cases h
      · cases h
      · next cs hcs => exact ⟨['+'], cs, rfl, .inr rfl, fun hnil => hcs (by rw [hnil]), h⟩
      · next hnil _ _ => exact ⟨[], text, rfl, .inl rfl, hnil, h⟩
    obtain ⟨sign, digits, htext, hsign, hne, hread⟩ := hdigits
    obtain ⟨values, hvalues, hn, hlimit⟩ := readDigits_sixteen_eq_ok_iff.mp hread
    exact ⟨⟨sign, digits, values, htext, hsign, hne, hvalues, hn⟩, hlimit⟩
  · rintro ⟨⟨sign, digits, values, rfl, hsign, hne, hvalues, hn⟩, hlimit⟩
    have hread := readDigits_sixteen_eq_ok_iff.mpr ⟨values, hvalues, hn, hlimit⟩
    obtain ⟨c, cs, rfl⟩ := List.exists_cons_of_ne_nil hne
    rcases hsign with rfl | rfl
    · obtain ⟨d, _, hd, _, _⟩ := List.forall₂_cons_left_iff.mp hvalues
      exact (read_cons_of_ne hd.ne_plus cs).trans hread
    · exact (read_plus_cons c cs).trans hread

end Chip8.Numeral
