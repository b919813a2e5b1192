import Mathlib
import Chip8.Pacer

/-!
# Rounding in single precision

Sums and differences are rounded, and yet they keep to the order of numbers as far as a pacer needs
it: what is added to a number does not bring it below a size that it had reached (`le_add`), and a
number less one that it reaches is not negative (`sub_nonneg`).

A finite number is a mantissa and an exponent, the mantissa of 24 binary digits unless the exponent
is the least one (`Canonical`). Such numbers are ordered by their exponents first. Rounding shifts a
mantissa that is too long to the right. What is shifted out is less than one in the last place that
is left, so that a number with room there stays in reach (`exists_round`).

In decimal notation a number is rounded once more, to a thousandth (`thousandths_of_finite`).
-/

namespace Chip8.Rounding

open Float.Model (Format totalExponent UnpackedFloat)
open Float.Model.UnpackedFloat

/-! ## Shifts -/

theorem mantissa_shiftRight (x : ExtendedMantissa) (k : Nat) :
    (x >>> k).mantissa = x.mantissa / 2 ^ k := by
  induction k with
  | zero => exact (Nat.div_one _).symm
  | succ k ih =>
    show (x >>> k).mantissa / 2 = _
    rw [ih, Nat.div_div_eq_div_mul, pow_succ]

theorem roundedMantissa_bounds (x : ExtendedMantissa) :
    x.mantissa ≤ x.roundedMantissa ∧ x.roundedMantissa ≤ x.mantissa + 1 := by
  obtain ⟨m, r, s⟩ := x
  cases r <;> cases s <;>
    simp [ExtendedMantissa.roundedMantissa, ExtendedMantissa.accuracy,
      Accuracy.roundToNearestEven]
  omega

/-- The exponent at which a number has 24 binary digits, if that is not below the least one. -/
theorem targetExponent_eq (m : Nat) (e : Int) :
    Format.binary32.targetExponent (totalExponent m e) = max (m.log2 + 1 + e - 24) (-149) := rfl

/-- The mantissa and the exponent of a finite number other than zero. -/
structure Canonical (m : Nat) (e : Int) : Prop where
  pos : 0 < m
  lt : m < 2 ^ 24
  le : -149 ≤ e
  full : 2 ^ 23 ≤ m ∨ e = -149

theorem shift_of_lt {m : Nat} {e : Int} (hm : m < 2 ^ 24) (he : -149 ≤ e) :
    shiftToTargetExponent Format.binary32 m e .exact = (⟨m, false, false⟩, e) := by
  have hlog : m.log2 < 24 := by
    rcases Nat.eq_zero_or_pos m with rfl | hpos
    · decide
    · exact (Nat.log2_lt hpos.ne').mpr hm
  have htarget : (Format.binary32.targetExponent (totalExponent m e) - e).toNat = 0 := by
    rw [targetExponent_eq]
    omega
  rw [shiftToTargetExponent, shiftToExponent, htarget]
  exact congrArg _ (Int.add_zero e)

theorem shift_two_pow {e : Int} (he : -149 ≤ e) :
    shiftToTargetExponent Format.binary32 (2 ^ 24) e .exact = (⟨2 ^ 23, false, false⟩, e + 1) := by
  have htarget : (Format.binary32.targetExponent (totalExponent (2 ^ 24) e) - e).toNat = 1 := by
    rw [targetExponent_eq, Nat.log2_two_pow]
    omega
  rw [shiftToTargetExponent, shiftToExponent, htarget]
  rfl

/-! ## Rounding -/

/-- A mantissa that is rounded up may have one digit more, which a second shift takes back. -/
theorem roundWithAccuracy_eq {s : Sign} {m : Nat} {e : Int} {x : ExtendedMantissa} {t : Int}
    (hshift : shiftToTargetExponent Format.binary32 m e .exact = (x, t)) (ht : -149 ≤ t)
    (hpos : 0 < x.roundedMantissa) (hle : x.roundedMantissa ≤ 2 ^ 24) :
    (x.roundedMantissa < 2 ^ 24 ∧
      roundWithAccuracy Format.binary32 s m e .exact = .finite s x.roundedMantissa t hpos) ∨
    (x.roundedMantissa = 2 ^ 24 ∧
      roundWithAccuracy Format.binary32 s m e .exact =
        .finite s (2 ^ 23) (t + 1) (Nat.two_pow_pos 23)) := by
  rcases Nat.lt_or_eq_of_le hle with hlt | heq
  · refine .inl ⟨hlt, ?_⟩
    simp only [roundWithAccuracy, hshift, shift_of_lt hlt ht, dif_neg hpos.ne']
  · refine .inr ⟨heq, ?_⟩
    simp only [roundWithAccuracy, hshift, heq, shift_two_pow ht]
    rfl

/-- A mantissa that reaches `m₀` at exponent `e₀` is shifted to 24 digits. It has all of them at a
greater exponent, and at `e₀` itself it still reaches `m₀`. -/
theorem exists_shift {m₀ m : Nat} {e₀ e : Int} (h₀ : Canonical m₀ e₀) (he : e ≤ e₀)
    (hm : m₀ * 2 ^ (e₀ - e).toNat ≤ m) :
    ∃ k : Nat, Format.binary32.targetExponent (totalExponent m e) = e + k ∧
      m / 2 ^ k < 2 ^ 24 ∧
      (e₀ < e + k ∧ 2 ^ 23 ≤ m / 2 ^ k ∨ e₀ = e + k ∧ m₀ ≤ m / 2 ^ k) := by
  have hpos : m ≠ 0 := (lt_of_lt_of_le (Nat.mul_pos h₀.pos (Nat.two_pow_pos _)) hm).ne'
  have hlog : 2 ^ 23 ≤ m₀ → 23 + (e₀ - e).toNat ≤ m.log2 := by
    intro hfull
    refine (Nat.le_log2 hpos).mpr (le_trans ?_ hm)
    rw [Nat.pow_add]
    exact Nat.mul_le_mul_right _ hfull
  have htarget : e₀ ≤ Format.binary32.targetExponent (totalExponent m e) := by
    rw [targetExponent_eq]
    rcases h₀.full with hfull | rfl
    · have hdigits := hlog hfull
      omega
    · exact le_max_right _ _
  obtain ⟨k, hk⟩ := Int.eq_ofNat_of_zero_le (Int.sub_nonneg.mpr (he.trans htarget))
  have htarget' := targetExponent_eq m e
  refine ⟨k, by omega, ?_, ?_⟩
  · rw [Nat.div_lt_iff_lt_mul (Nat.two_pow_pos k), ← Nat.pow_add]
    exact Nat.lt_of_lt_of_le Nat.lt_log2_self (Nat.pow_le_pow_right (by decide) (by omega))
  · rcases htarget.lt_or_eq with hlt | heq
    · refine .inl ⟨by omega, ?_⟩
      have hnormal := h₀.le
      rw [Nat.le_div_iff_mul_le (Nat.two_pow_pos k), ← Nat.pow_add]
      exact (Nat.pow_le_pow_right (by decide) (by omega)).trans (Nat.log2_self_le hpos)
    · refine .inr ⟨by omega, ?_⟩
      have hshift : (e₀ - e).toNat = k := by omega
      rw [Nat.le_div_iff_mul_le (Nat.two_pow_pos k), ← hshift]
      exact hm

/-- What reaches a number of single precision still reaches it when it is rounded. -/
theorem exists_round {m₀ m : Nat} {e₀ e : Int} (h₀ : Canonical m₀ e₀) (he : e ≤ e₀)
    (hm : m₀ * 2 ^ (e₀ - e).toNat ≤ m) (s : Sign) :
    ∃ (m' : Nat) (e' : Int) (hpos : 0 < m'),
      UnpackedFloat.round Format.binary32 s m e = .finite s m' e' hpos ∧ Canonical m' e' ∧
        (e₀ < e' ∨ e₀ = e' ∧ m₀ ≤ m') := by
  obtain ⟨k, htarget, hlt, hcases⟩ := exists_shift h₀ he hm
  have hround : UnpackedFloat.round Format.binary32 s m e =
      roundWithAccuracy Format.binary32 s m e .exact := by
    have hzero : (e - (e + (k : Int))).toNat = 0 := by omega
    simp only [UnpackedFloat.round, decreaseExponent, htarget, hzero]
    rw [Nat.shiftLeft_zero]
    congr 1
    omega
  have hshift : shiftToTargetExponent Format.binary32 m e .exact =
      ((⟨m, false, false⟩ : ExtendedMantissa) >>> k, e + k) := by
    have hk : (e + (k : Int) - e).toNat = k := by omega
    rw [shiftToTargetExponent, htarget, shiftToExponent, hk]
    rfl
  obtain ⟨hlow, hhigh⟩ := roundedMantissa_bounds ((⟨m, false, false⟩ : ExtendedMantissa) >>> k)
  rw [mantissa_shiftRight] at hlow hhigh
  dsimp only at hlow hhigh
  obtain ⟨hpos, _, hnormal, hfull⟩ := h₀
  rw [hround]
  rcases roundWithAccuracy_eq (s := s) hshift (by omega) (by omega) (by omega) with
    ⟨hsmall, heq⟩ | ⟨_, heq⟩
  · exact ⟨_, _, _, heq, ⟨by omega, hsmall, by omega, by omega⟩, by omega⟩
  · exact ⟨_, _, _, heq, ⟨by decide, by decide, by omega, .inl le_rfl⟩, by omega⟩

/-! ## Packing -/

theorem toNat_append_one (y : BitVec 23) : (1#1 ++ y).toNat = 2 ^ 23 + y.toNat := by
  rw [BitVec.toNat_append, ← Nat.shiftLeft_add_eq_or_of_lt y.isLt]
  rfl

theorem toNat_append_one_pos (y : BitVec 23) : 0 < (1#1 ++ y).toNat := by
  rw [toNat_append_one]
  exact Nat.add_pos_left (Nat.two_pow_pos 23) _

theorem toNat_pos {y : BitVec 23} (h : y ≠ 0#23) : 0 < y.toNat :=
  Nat.pos_of_ne_zero fun hzero => h (BitVec.eq_of_toNat_eq hzero)

/-- What is read from the three parts of a packed number. -/
theorem unpack_packComponents (s : Sign) (x : BitVec 8) (y : BitVec 23) :
    UnpackedFloat.unpack _ (packComponents Format.binary32 s x y) =
      if x = -1#8 then if y = 0#23 then .infinity s else .notANumber
      else if x = 0#8 then
        if h : y = 0#23 then .zero s
        else .finite s y.toNat (x.toNat - 150 + 1) (toNat_pos h)
      else .finite s (1#1 ++ y).toNat (x.toNat - 150) (toNat_append_one_pos y) := by
  simp only [UnpackedFloat.unpack, unpackMantissa_packComponents, unpackExponent_packComponents,
    unpackSign_packComponents, Sign.ofBitVec_toBitVec]
  rfl

theorem unpack_pack_infinity (s : Sign) :
    (Float32.Model.pack (.infinity s)).unpack = .infinity s := by
  show UnpackedFloat.unpack _ (packComponents Format.binary32 s _ _) = _
  exact unpack_packComponents s (-1#8) 0#23

theorem unpack_pack_zero (s : Sign) : (Float32.Model.pack (.zero s)).unpack = .zero s :=
  unpack_packedZero

theorem unpack_normal (s : Sign) {x : BitVec 8} (y : BitVec 23) (hones : x ≠ -1#8)
    (hzero : x ≠ 0#8) {m : Nat} {e : Int} (hm : 2 ^ 23 + y.toNat = m)
    (he : (x.toNat : Int) - 150 = e) (hpos : 0 < m) :
    UnpackedFloat.unpack _ (packComponents Format.binary32 s x y) = .finite s m e hpos := by
  have happend : (1#1 ++ y).toNat = m := (toNat_append_one y).trans hm
  subst he
  subst happend
  rw [unpack_packComponents, if_neg hones, if_neg hzero]

theorem unpack_subnormal (s : Sign) {y : BitVec 23} {m : Nat} (hm : y.toNat = m) (hpos : 0 < m) :
    UnpackedFloat.unpack _ (packComponents Format.binary32 s 0#8 y) = .finite s m (-149) hpos := by
  subst hm
  have hy : y ≠ 0#23 := by
    rintro rfl
    exact Nat.lt_irrefl 0 hpos
  rw [unpack_packComponents, if_neg (by decide), if_pos rfl, dif_neg hy]
  rfl

theorem ofNat_exponent {b : Nat} (hpos : 0 < b) (hlt : b < 255) :
    (BitVec.ofNat 8 b).toNat = b ∧ BitVec.ofNat 8 b ≠ -1#8 ∧ BitVec.ofNat 8 b ≠ 0#8 := by
  have hb : (BitVec.ofNat 8 b).toNat = b := by
    rw [BitVec.toNat_ofNat]
    omega
  refine ⟨hb, fun hones => ?_, fun hzero => ?_⟩
  · have h255 : b = 255 := hb.symm.trans (congrArg BitVec.toNat hones)
    omega
  · have h0 : b = 0 := hb.symm.trans (congrArg BitVec.toNat hzero)
    omega

theorem pack_finite (s : Sign) {m : Nat} {e : Int} (hpos : 0 < m) :
    UnpackedFloat.pack Format.binary32 (.finite s m e hpos) =
      if 2 ^ 8 ≤ (e + 150).toNat + 1 then packedInfinity Format.binary32 s
      else if m.log2 + 1 = 24 then
        packComponents Format.binary32 s (BitVec.ofNat 8 (e + 150).toNat) (BitVec.ofNat 23 m)
      else packComponents Format.binary32 s 0#8 (BitVec.ofNat 23 m) := by
  have hbiased : (e + (Format.binary32.exponentBias : Nat) +
      (Format.binary32.mantissaBitsWithoutImplicit : Nat)).toNat = (e + 150).toNat := by
    show (e + 127 + 23).toNat = _
    omega
  simp only [UnpackedFloat.pack, hbiased]
  rfl

/-- A number that is packed is read back as it is, or as infinity if it is too large. -/
theorem unpack_pack_finite {s : Sign} {m : Nat} {e : Int} {hpos : 0 < m} (h : Canonical m e) :
    (Float32.Model.pack (.finite s m e hpos)).unpack = .infinity s ∨
      (Float32.Model.pack (.finite s m e hpos)).unpack = .finite s m e hpos := by
  have hnormal := h.le
  have hlt := h.lt
  have hlog := (Nat.log2_lt hpos.ne').mpr hlt
  show UnpackedFloat.unpack _ (UnpackedFloat.pack Format.binary32 _) = _ ∨
    UnpackedFloat.unpack _ (UnpackedFloat.pack Format.binary32 _) = _
  rw [pack_finite]
  by_cases hlarge : 2 ^ 8 ≤ (e + 150).toNat + 1
  · rw [if_pos hlarge]
    exact .inl (unpack_pack_infinity s)
  rw [if_neg hlarge]
  refine .inr ?_
  by_cases hfull : 2 ^ 23 ≤ m
  · have hdigits := (Nat.le_log2 hpos.ne').mpr hfull
    obtain ⟨hx, hones, hzero⟩ := @ofNat_exponent (e + 150).toNat (by omega) (by omega)
    rw [if_pos (by omega)]
    refine unpack_normal s _ hones hzero ?_ ?_ hpos
    · rw [BitVec.toNat_ofNat]
      omega
    · rw [hx]
      omega
  · have hdigits := (Nat.log2_lt hpos.ne').mpr (Nat.not_le.mp hfull)
    obtain rfl : e = -149 := h.full.resolve_left hfull
    rw [if_neg (by omega)]
    refine unpack_subnormal s ?_ hpos
    rw [BitVec.toNat_ofNat]
    omega

/-- What is read from a packed number has as many digits as its exponent allows. -/
theorem canonical_of_unpack {x : Float32.Model} {s : Sign} {m : Nat} {e : Int} {hpos : 0 < m}
    (h : x.unpack = .finite s m e hpos) : Canonical m e := by
  have hlow : (@unpackMantissa Format.binary32 x.toBits.toBitVec).toNat < 2 ^ 23 := BitVec.isLt _
  have hbias : ((Format.binary32.exponentBias : Nat) : Int) = 127 := rfl
  unfold Float32.Model.unpack UnpackedFloat.unpack at h
  simp only [hbias] at h
  split at h
  · split at h <;> cases h
  split at h
  · next hzero =>
    split at h
    · cases h
    have hexponent : (@unpackExponent Format.binary32 x.toBits.toBitVec).toNat = 0 :=
      congrArg BitVec.toNat hzero
    obtain ⟨-, rfl, rfl⟩ := UnpackedFloat.finite.inj h
    exact ⟨hpos, by omega, by omega, .inr (by omega)⟩
  · next hzero =>
    obtain ⟨-, rfl, rfl⟩ := UnpackedFloat.finite.inj h
    have happend := toNat_append_one (@unpackMantissa Format.binary32 x.toBits.toBitVec)
    have hexponent : 0 < (@unpackExponent Format.binary32 x.toBits.toBitVec).toNat :=
      Nat.pos_of_ne_zero fun h => hzero (BitVec.eq_of_toNat_eq h)
    exact ⟨hpos, by omega, by omega, .inl (by omega)⟩

/-! ## Order -/

theorem le_iff {x y : Float32} : x ≤ y ↔ x.toModel.unpack.le y.toModel.unpack = true :=
  decide_eq_true_iff

/-- A positive number that is not infinite. -/
def Positive (x : Float32) : Prop := ∃ m e hpos, x.toModel.unpack = .finite .positive m e hpos

theorem positive_frameStep : Positive Pacer.frameStep :=
  ⟨8947849, -29, by decide, by rfl⟩

/-- Zero or more, as a number that was read. -/
def Nonneg (x : UnpackedFloat) : Prop := UnpackedFloat.le (.zero .positive) x = true

theorem zero_le_iff {x : Float32} : 0 ≤ x ↔ Nonneg x.toModel.unpack := by
  have hzero : (0 : Float32).toModel.unpack = .zero .positive := by rfl
  rw [le_iff, hzero, Nonneg]

theorem nonneg_iff {x : UnpackedFloat} :
    Nonneg x ↔
      x = .infinity .positive ∨ (∃ s, x = .zero s) ∨
        ∃ m e hpos, x = .finite .positive m e hpos := by
  rcases x with (_ | _) | _ | (_ | _) | ⟨_ | _, m, e, hpos⟩ <;>
    simp [Nonneg, UnpackedFloat.le, UnpackedFloat.compare]
  exact hpos

theorem isLE_compare_iff {m m' : Nat} {e e' : Int} :
    ((compare e e').then (compare m m')).isLE = true ↔ e < e' ∨ e = e' ∧ m ≤ m' := by
  rw [Ordering.isLE_then_iff_or, compare_lt_iff_lt, compare_eq_iff_eq, Nat.isLE_compare]

section

variable {m m' : Nat} {e e' : Int} {hpos : 0 < m} {hpos' : 0 < m'}

theorem finite_le_iff {x : UnpackedFloat} :
    UnpackedFloat.le (.finite .positive m e hpos) x = true ↔
      x = .infinity .positive ∨
        ∃ m' e' hpos', x = .finite .positive m' e' hpos' ∧ (e < e' ∨ e = e' ∧ m ≤ m') := by
  rcases x with (_ | _) | _ | (_ | _) | ⟨_ | _, m', e', hpos'⟩ <;>
    simp [UnpackedFloat.le, UnpackedFloat.compare, isLE_compare_iff]
  exact fun _ => hpos'

theorem nonneg_of_le {c x : Float32} (hc : Positive c) (h : c ≤ x) : 0 ≤ x := by
  obtain ⟨m, e, hpos, hc⟩ := hc
  rw [le_iff, hc, finite_le_iff] at h
  rw [zero_le_iff, nonneg_iff]
  rcases h with h | ⟨m', e', hpos', h, _⟩
  · exact .inl h
  · exact .inr (.inr ⟨m', e', hpos', h⟩)

theorem le_pack_infinity :
    UnpackedFloat.le (.finite .positive m e hpos)
      (Float32.Model.pack (.infinity .positive)).unpack = true := by
  rw [unpack_pack_infinity]
  rfl

theorem le_pack_finite (h : Canonical m' e') (hle : e < e' ∨ e = e' ∧ m ≤ m') :
    UnpackedFloat.le (.finite .positive m e hpos)
      (Float32.Model.pack (.finite .positive m' e' hpos')).unpack = true := by
  rw [finite_le_iff]
  exact (unpack_pack_finite h).imp_right fun heq => ⟨m', e', hpos', heq, hle⟩

/-- The order of two mantissas at the lesser of their exponents. -/
theorem mul_two_pow_le (h : Canonical m e) (h' : Canonical m' e')
    (hle : e' < e ∨ e' = e ∧ m' ≤ m) :
    m' * 2 ^ (e' - min e e').toNat ≤ m * 2 ^ (e - min e e').toNat := by
  have hmin : min e e' = e' := by omega
  rw [hmin, Int.sub_self, Int.toNat_zero, Nat.pow_zero, Nat.mul_one]
  rcases hle with hlt | ⟨rfl, hle⟩
  · have hnormal := h'.le
    have hfull : 2 ^ 23 ≤ m := h.full.resolve_right (by omega)
    calc
      m' ≤ 2 ^ 23 * 2 ^ 1 := h'.lt.le
      _ ≤ m * 2 ^ (e - e').toNat :=
        Nat.mul_le_mul hfull (Nat.pow_le_pow_right (by decide) (by omega))
  · rw [Int.sub_self]
    exact hle.trans_eq (Nat.mul_one m).symm

/-! ## Sums -/

theorem normalize_natCast (hpos : 0 < m) (e : Int) (s : Sign) :
    UnpackedFloat.normalize Format.binary32 m e s =
      UnpackedFloat.round Format.binary32 .positive m e := by
  have hcompare : compare (m : Int) 0 = .gt := compare_gt_iff_gt.mpr (Int.natCast_pos.mpr hpos)
  rw [UnpackedFloat.normalize, hcompare]
  rfl

theorem add_finite :
    UnpackedFloat.add Format.binary32 (.finite .positive m e hpos) (.finite .positive m' e' hpos') =
      UnpackedFloat.round Format.binary32 .positive
        (m * 2 ^ (e - min e e').toNat + m' * 2 ^ (e' - min e e').toNat) (min e e') := by
  rw [← normalize_natCast (Nat.add_pos_left (Nat.mul_pos hpos (Nat.two_pow_pos _)) _) _ .positive]
  simp only [UnpackedFloat.add, decreaseExponent, Sign.apply, Nat.shiftLeft_eq, Nat.cast_add]

/-- A sum reaches what one of its parts does, if the other part is not negative. -/
theorem le_add {c x y : Float32} (hc : Positive c) (hx : 0 ≤ x) (hy : c ≤ y) : c ≤ x + y := by
  obtain ⟨m₀, e₀, hpos₀, hc⟩ := hc
  rw [zero_le_iff, nonneg_iff] at hx
  rw [le_iff, hc] at hy ⊢
  show UnpackedFloat.le _ (Float32.Model.pack
    (UnpackedFloat.add Format.binary32 x.toModel.unpack y.toModel.unpack)).unpack = true
  rcases finite_le_iff.mp hy with hy | ⟨m', e', hpos', hy, hle⟩
  · rw [hy]
    rcases hx with hx | ⟨s, hx⟩ | ⟨m, e, hpos, hx⟩ <;> rw [hx]
    all_goals exact le_pack_infinity
  have hcanonical := canonical_of_unpack hy
  rw [hy]
  rcases hx with hx | ⟨s, hx⟩ | ⟨m, e, hpos, hx⟩ <;> rw [hx]
  · exact le_pack_infinity
  · exact le_pack_finite hcanonical hle
  -- the exact sum reaches `y`, and so does the rounded one
  · obtain ⟨m'', e'', hpos'', hround, hsum, hle'⟩ := exists_round hcanonical (min_le_right e e')
      (Nat.le_add_left _ (m * 2 ^ (e - min e e').toNat)) .positive
    rw [add_finite, hround]
    exact le_pack_finite hsum (by omega)

/-! ## Differences -/

theorem sub_finite :
    UnpackedFloat.sub Format.binary32 (.finite .positive m e hpos) (.finite .positive m' e' hpos') =
      UnpackedFloat.normalize Format.binary32
        ((m * 2 ^ (e - min e e').toNat : Nat) - (m' * 2 ^ (e' - min e e').toNat : Nat))
        (min e e') .positive := by
  simp only [UnpackedFloat.sub, decreaseExponent, Sign.apply, Nat.shiftLeft_eq]

theorem nonneg_unpack {x : BitVec 8} (hones : x ≠ -1#8) (y : BitVec 23) :
    Nonneg (UnpackedFloat.unpack _ (packComponents Format.binary32 .positive x y)) := by
  rw [unpack_packComponents, if_neg hones]
  split
  · split <;> rfl
  · rfl

theorem nonneg_pack_infinity : Nonneg (Float32.Model.pack (.infinity .positive)).unpack := by
  rw [unpack_pack_infinity]
  rfl

theorem nonneg_pack_zero : Nonneg (Float32.Model.pack (.zero .positive)).unpack := by
  rw [unpack_pack_zero]
  rfl

theorem nonneg_pack_finite : Nonneg (Float32.Model.pack (.finite .positive m e hpos)).unpack := by
  show Nonneg (UnpackedFloat.unpack _ (UnpackedFloat.pack Format.binary32 _))
  rw [pack_finite]
  split
  · exact nonneg_pack_infinity
  · split
    · refine nonneg_unpack (fun heq => ?_) _
      have hones : (e + 150).toNat % 2 ^ 8 = 255 := congrArg BitVec.toNat heq
      omega
    · exact nonneg_unpack (by decide) _

theorem nonneg_round (m : Nat) (e : Int) :
    Nonneg (Float32.Model.pack (UnpackedFloat.round Format.binary32 .positive m e)).unpack := by
  unfold UnpackedFloat.round roundWithAccuracy
  dsimp only
  split
  · exact nonneg_pack_zero
  · exact nonneg_pack_finite

theorem nonneg_normalize {d : Int} (hd : 0 ≤ d) (e : Int) :
    Nonneg (Float32.Model.pack (UnpackedFloat.normalize Format.binary32 d e .positive)).unpack := by
  obtain ⟨m, rfl⟩ := Int.eq_ofNat_of_zero_le hd
  rcases Nat.eq_zero_or_pos m with rfl | hpos
  · exact nonneg_pack_zero
  · rw [normalize_natCast hpos]
    exact nonneg_round m e

end

/-- A number less one that it reaches is not negative. -/
theorem sub_nonneg {c x : Float32} (hc : Positive c) (h : c ≤ x) : 0 ≤ x - c := by
  obtain ⟨m', e', hpos', hc⟩ := hc
  rw [le_iff, hc, finite_le_iff] at h
  rw [zero_le_iff]
  show Nonneg (Float32.Model.pack
    (UnpackedFloat.sub Format.binary32 x.toModel.unpack c.toModel.unpack)).unpack
  rw [hc]
  rcases h with h | ⟨m, e, hpos, h, hle⟩
  · rw [h]
    exact nonneg_pack_infinity
  · have hmantissas := mul_two_pow_le (canonical_of_unpack h) (canonical_of_unpack hc) hle
    rw [h, sub_finite]
    exact nonneg_normalize (Int.sub_nonneg.mpr (Int.ofNat_le.mpr hmantissas)) _

/-! ## Decimal notation -/

theorem roundDiv_bounds (n : Nat) {d : Nat} (hd : 0 < d) :
    2 * n ≤ 2 * (d * Numeral.roundDiv n d) + d ∧ 2 * (d * Numeral.roundDiv n d) ≤ 2 * n + d := by
  have hdivision := Nat.div_add_mod n d
  have hrest := Nat.mod_lt n hd
  unfold Numeral.roundDiv
  dsimp only
  split
  · rw [Nat.mul_succ]
    omega
  · omega

/-- What is written of a number is within half a thousandth of it. -/
theorem thousandths_of_finite {x : Float32} {s : Sign} {m : Nat} {e : Int} {hpos : 0 < m}
    (h : x.toModel.unpack = .finite s m e hpos) :
    ∃ n : Nat, Numeral.thousandths x = Numeral.signText s ++ Numeral.ofThousandths n ∧
      |(n : ℚ) / 1000 - m * 2 ^ e| ≤ 1 / 2000 := by
  have hpositive : 0 < 1 <<< (-e).toNat := by simp [Nat.shiftLeft_eq]
  obtain ⟨hlow, hhigh⟩ := roundDiv_bounds ((1000 * m) <<< e.toNat) hpositive
  refine ⟨_, by rw [Numeral.thousandths, h], ?_⟩
  generalize Numeral.roundDiv _ _ = n at hlow hhigh ⊢
  rw [Nat.shiftLeft_eq, Nat.shiftLeft_eq, Nat.one_mul, Nat.mul_assoc] at hlow hhigh
  have hpower : (2 : ℚ) ^ e = 2 ^ e.toNat / 2 ^ (-e).toNat := by
    rw [← zpow_natCast, ← zpow_natCast, ← zpow_sub₀ (by norm_num)]
    congr 1
    omega
  have hd : (0 : ℚ) < 2 ^ (-e).toNat := by positivity
  have hlow' : (2 * (1000 * (m * 2 ^ e.toNat)) : ℚ) ≤
      2 * (2 ^ (-e).toNat * n) + 2 ^ (-e).toNat := by
    exact_mod_cast hlow
  have hhigh' : (2 * (2 ^ (-e).toNat * n) : ℚ) ≤
      2 * (1000 * (m * 2 ^ e.toNat)) + 2 ^ (-e).toNat := by
    exact_mod_cast hhigh
  rw [hpower, ← mul_div_assoc, abs_sub_le_iff, sub_le_iff_le_add, sub_le_iff_le_add,
    ← sub_le_iff_le_add', le_div_iff₀ hd, div_le_iff₀ hd]
  constructor <;> linarith

end Chip8.Rounding
