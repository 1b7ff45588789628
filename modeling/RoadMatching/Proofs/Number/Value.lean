import Mathlib
import RoadMatching.Number.Binary64

/-!
The rational values of binary64 numbers.

A finite number is `m * 2 ^ e` with a sign. Of the ways to write it so, the format has the one in which
`m` takes all of 53 bits, unless `e` is the least exponent. Hence numbers can be compared by their
exponents first.

* `scaled`: the number `m * 2 ^ e`. `IsCanonical`: the way that the format has.
* `isCanonical_of_unpack`, `unpack_pack_finite`: what is unpacked is canonical, and what is canonical is
  unpacked again, unless its exponent is too great.
* `value?`: the value of a finite number. `of_valueOf?`, `of_valueOf?_of_nonneg`: the numbers that
  have one. `lt_iff_of_value?`: numbers are ordered by their values.
* `exists_value?_of_not_lt`: what is neither below nor above finite numbers is finite.
-/

namespace RoadMatching.Binary64

open Float.Model (Format UnpackedFloat)

/-! ### Canonical forms -/

/-- The number `m * 2 ^ e`. -/
def scaled (m : ℕ) (e : ℤ) : ℚ := m * 2 ^ e

/-- The mantissa takes all of 53 bits, or the exponent is the least one. -/
structure IsCanonical (m : ℕ) (e : ℤ) : Prop where
  mantissa : m < 2 ^ 53
  exponent : -1074 ≤ e
  normal : e = -1074 ∨ 2 ^ 52 ≤ m

lemma scaled_pos {m : ℕ} (h : 0 < m) (e : ℤ) : 0 < scaled m e :=
  mul_pos (Nat.cast_pos.2 h) (zpow_pos two_pos e)

lemma scaled_nonneg (m : ℕ) (e : ℤ) : 0 ≤ scaled m e :=
  mul_nonneg (Nat.cast_nonneg m) (zpow_pos two_pos e).le

/-- A shift to the left is made up for by the exponent. -/
lemma scaled_shiftLeft (m k : ℕ) (e : ℤ) : scaled (m <<< k) (e - k) = scaled m e := by
  rw [scaled, scaled, Nat.shiftLeft_eq, zpow_sub₀ two_ne_zero, zpow_natCast]
  push_cast
  field_simp

/-- With all bits in the mantissa, the greater exponent makes the greater number. -/
lemma scaled_le_of_exponent_lt {m n : ℕ} {e f : ℤ} (hm : m ≤ 2 ^ 53) (hn : 2 ^ 52 ≤ n)
    (h : e < f) : scaled m e ≤ scaled n f := by
  have hm' : (m : ℚ) ≤ 2 ^ 53 := mod_cast hm
  have hn' : (2 : ℚ) ^ 52 ≤ n := mod_cast hn
  calc scaled m e
      ≤ 2 ^ 53 * 2 ^ e := mul_le_mul_of_nonneg_right hm' (zpow_pos two_pos e).le
    _ = 2 ^ 52 * 2 ^ (e + 1) := by rw [zpow_add_one₀ two_ne_zero]; ring
    _ ≤ 2 ^ 52 * 2 ^ f := by gcongr <;> norm_num; omega
    _ ≤ scaled n f := mul_le_mul_of_nonneg_right hn' (zpow_pos two_pos f).le

/-- Numbers of one exponent are ordered by their mantissas. -/
lemma scaled_lt_scaled_iff {m n : ℕ} {e : ℤ} : scaled m e < scaled n e ↔ m < n := by
  rw [scaled, scaled, mul_lt_mul_iff_left₀ (zpow_pos two_pos e), Nat.cast_lt]

/-- A canonical number is less than one with a greater exponent. -/
lemma IsCanonical.scaled_lt {m n : ℕ} {e f : ℤ} (hm : IsCanonical m e) (hn : IsCanonical n f)
    (h : e < f) : scaled m e < scaled n f := by
  have hnormal : 2 ^ 52 ≤ n := hn.normal.resolve_left (by have := hm.exponent; omega)
  calc scaled m e
      < scaled (2 ^ 53) e := scaled_lt_scaled_iff.2 hm.mantissa
    _ ≤ scaled n f := scaled_le_of_exponent_lt le_rfl hnormal h

/-- Exponents and then mantissas, compared the other way around. -/
lemma swap_compare_then (m n : ℕ) (e f : ℤ) :
    ((compare e f).then (compare m n)).swap = (compare f e).then (compare n m) := by
  rw [Ordering.swap_then, ← Std.OrientedCmp.eq_swap, ← Std.OrientedCmp.eq_swap]

/-- Canonical numbers are ordered by their exponents first. -/
lemma IsCanonical.compare_eq_lt_iff {m n : ℕ} {e f : ℤ} (hm : IsCanonical m e)
    (hn : IsCanonical n f) :
    (compare e f).then (compare m n) = .lt ↔ scaled m e < scaled n f := by
  rcases lt_trichotomy e f with h | rfl | h
  · simp [compare_lt_iff_lt.2 h, Ordering.then, hm.scaled_lt hn h]
  · simp [Ordering.then, scaled_lt_scaled_iff, compare_lt_iff_lt]
  · simp [compare_gt_iff_gt.2 h, Ordering.then, (hn.scaled_lt hm h).le]

/-! ### Packing -/

/-- The mantissa of a number with an implicit bit. -/
lemma toNat_implicit (v : BitVec 52) : (1#1 ++ v).toNat = 2 ^ 52 + v.toNat := by
  rw [BitVec.toNat_append, ← Nat.shiftLeft_add_eq_or_of_lt v.isLt, Nat.shiftLeft_eq]
  rfl

/-- What is unpacked as a finite number is canonical. -/
lemma isCanonical_of_unpack {b : Float.Model} {sign : UnpackedFloat.Sign} {m : ℕ} {e : ℤ}
    {hm : 0 < m} (h : b.unpack = .finite sign m e hm) : IsCanonical m e ∧ e ≤ 971 := by
  simp only [Float.Model.unpack, UnpackedFloat.unpack] at h
  set mantissa : BitVec 52 := @UnpackedFloat.unpackMantissa .binary64 b.toBits.toBitVec
  set exponent : BitVec 11 := @UnpackedFloat.unpackExponent .binary64 b.toBits.toBitVec
  have hmantissa := mantissa.isLt
  have hexponent := exponent.isLt
  have hbias : ((Format.binary64.exponentBias : ℕ) : ℤ) = 1023 := rfl
  split at h
  · split at h <;> cases h
  · next hspecial =>
    split at h
    · next hzero =>
      split at h
      · cases h
      · cases h
        have hexponent : ((exponent.toNat : ℤ) - (1023 + 52) + 1) = -1074 := by rw [hzero]; rfl
        rw [hbias, Nat.cast_ofNat, hexponent]
        exact ⟨⟨by omega, le_rfl, .inl rfl⟩, by decide⟩
    · next hzero =>
      have hspecial : exponent.toNat ≠ 2047 := fun h => hspecial (BitVec.eq_of_toNat_eq h)
      have hzero : exponent.toNat ≠ 0 := fun h => hzero (BitVec.eq_of_toNat_eq h)
      cases h
      rw [hbias, Nat.cast_ofNat, toNat_implicit]
      exact ⟨⟨by omega, by omega, .inr (by omega)⟩, by omega⟩

/-- The sign of what is packed is unpacked again. -/
lemma unpackSign_packComponents (sign : UnpackedFloat.Sign) (exponent : BitVec 11)
    (mantissa : BitVec 52) :
    .ofBitVec (UnpackedFloat.unpackSign
      (UnpackedFloat.packComponents .binary64 sign exponent mantissa)) = sign := by
  simp only [UnpackedFloat.unpackSign, UnpackedFloat.packComponents, BitVec.extractLsb]
  rw [BitVec.extractLsb'_append_eq_of_le (by omega), BitVec.extractLsb'_append_eq_of_le (by omega)]
  cases sign <;> rfl

/-- With the least exponent a mantissa is unpacked as it is. -/
lemma unpack_packComponents_zero (sign : UnpackedFloat.Sign) {mantissa : BitVec 52}
    (h : mantissa ≠ 0#52) :
    UnpackedFloat.unpack .binary64 (UnpackedFloat.packComponents .binary64 sign 0#11 mantissa) =
      .finite sign mantissa.toNat (-1074)
        (Nat.pos_of_ne_zero fun hzero => h (BitVec.eq_of_toNat_eq hzero)) := by
  simp only [UnpackedFloat.unpack, UnpackedFloat.unpackExponent_packComponents,
    UnpackedFloat.unpackMantissa_packComponents, unpackSign_packComponents]
  rw [if_neg (by decide), if_pos trivial, dif_neg h]
  rfl

/-- With any other exponent it is unpacked with the implicit bit. -/
lemma unpack_packComponents (sign : UnpackedFloat.Sign) {exponent : BitVec 11} (mantissa : BitVec 52)
    (hspecial : exponent ≠ -1#11) (hzero : exponent ≠ 0#11) :
    UnpackedFloat.unpack .binary64 (UnpackedFloat.packComponents .binary64 sign exponent mantissa) =
      .finite sign (2 ^ 52 + mantissa.toNat) (exponent.toNat - 1075)
        (Nat.add_pos_left (Nat.two_pow_pos 52) _) := by
  simp only [UnpackedFloat.unpack, UnpackedFloat.unpackExponent_packComponents,
    UnpackedFloat.unpackMantissa_packComponents, unpackSign_packComponents]
  rw [if_neg hspecial, if_neg hzero, UnpackedFloat.finite.injEq, toNat_implicit]
  exact ⟨rfl, rfl, rfl⟩

/-- A canonical number is unpacked as it was packed, unless its exponent is too great: then it is
infinite. -/
lemma unpack_pack_finite {sign : UnpackedFloat.Sign} {m : ℕ} {e : ℤ} (hm : 0 < m)
    (h : IsCanonical m e) :
    (Float.Model.pack (.finite sign m e hm)).unpack =
      if e ≤ 971 then .finite sign m e hm else .infinity sign := by
  have hpacked : (e + (Format.binary64.exponentBias : ℕ) +
      (Format.binary64.mantissaBitsWithoutImplicit : ℕ)).toNat = (e + 1075).toNat := by
    show (e + (1023 : ℕ) + (52 : ℕ)).toNat = _
    omega
  have hbits : m.log2 + 1 = Format.binary64.mantissaBits ↔ 2 ^ 52 ≤ m := by
    have hlog := Nat.log2_lt hm.ne' (k := 53)
    have hlog' := Nat.le_log2 hm.ne' (k := 52)
    have hmantissa := h.mantissa
    rw [show Format.binary64.mantissaBits = 53 from rfl]
    omega
  obtain ⟨hmantissa, hexponent, hnormal⟩ := h
  show UnpackedFloat.unpack .binary64 (UnpackedFloat.pack .binary64 (.finite sign m e hm)) = _
  rw [UnpackedFloat.pack]
  simp only [hpacked, hbits]
  by_cases he : e ≤ 971
  · rw [if_pos he, if_neg (by omega)]
    split_ifs with hlarge
    · have he' : (BitVec.ofNat 11 (e + 1075).toNat).toNat = (e + 1075).toNat := by
        rw [BitVec.toNat_ofNat]
        omega
      have hspecial : BitVec.ofNat 11 (e + 1075).toNat ≠ -1#11 := fun h => by
        have h : _ = 2047 := congrArg BitVec.toNat h
        omega
      have hzero : BitVec.ofNat 11 (e + 1075).toNat ≠ 0#11 := fun h => by
        have h : _ = 0 := congrArg BitVec.toNat h
        omega
      have hm' : (BitVec.ofNat 52 m).toNat = m - 2 ^ 52 := by
        rw [BitVec.toNat_ofNat]
        omega
      rw [unpack_packComponents sign _ hspecial hzero, UnpackedFloat.finite.injEq, hm', he']
      exact ⟨rfl, by omega, by omega⟩
    · obtain rfl := hnormal.resolve_right hlarge
      have hm' : (BitVec.ofNat 52 m).toNat = m := by
        rw [BitVec.toNat_ofNat]
        omega
      have hzero : BitVec.ofNat 52 m ≠ 0#52 := fun h => by
        have h : _ = 0 := congrArg BitVec.toNat h
        omega
      rw [unpack_packComponents_zero sign hzero, UnpackedFloat.finite.injEq]
      exact ⟨rfl, hm', rfl⟩
  · rw [if_neg he, if_pos (by omega)]
    cases sign <;> rfl

/-! ### Values -/

/-- The value of an unpacked number, if it is finite. -/
def valueOf? : UnpackedFloat → Option ℚ
  | .zero _ => some 0
  | .finite .positive m e _ => some (scaled m e)
  | .finite .negative m e _ => some (-scaled m e)
  | .infinity _ | .notANumber => none

/-- A number with a value is a zero, or it has a mantissa. -/
lemma of_valueOf? {u : UnpackedFloat} {a : ℚ} (h : valueOf? u = some a) :
    (∃ sign, u = .zero sign ∧ a = 0) ∨
      ∃ sign m e hm, u = .finite sign m e hm ∧ a = ((sign.apply m : ℤ) : ℚ) * 2 ^ e := by
  cases u with
  | infinity sign => cases h
  | notANumber => cases h
  | zero sign => exact .inl ⟨sign, rfl, (Option.some.inj h).symm⟩
  | finite sign m e hm =>
    refine .inr ⟨sign, m, e, hm, rfl, ?_⟩
    cases sign with
    | positive => exact (Option.some.inj h).symm
    | negative =>
      rw [← Option.some.inj h, scaled, ← neg_mul]
      exact congrArg (· * (2 : ℚ) ^ e) (Int.cast_neg (m : ℤ)).symm

/-- If the value is not negative, then the mantissa is positive. -/
lemma of_valueOf?_of_nonneg {u : UnpackedFloat} {a : ℚ} (h : valueOf? u = some a) (ha : 0 ≤ a) :
    (∃ sign, u = .zero sign ∧ a = 0) ∨
      ∃ m e hm, u = .finite .positive m e hm ∧ a = scaled m e := by
  obtain hzero | ⟨sign, m, e, hm, rfl, -⟩ := of_valueOf? h
  · exact .inl hzero
  · cases sign with
    | positive => exact .inr ⟨m, e, hm, rfl, (Option.some.inj h).symm⟩
    | negative =>
      cases h
      exact absurd ha (neg_neg_of_pos (scaled_pos hm e)).not_ge

/-- The value of a number, if it is finite. -/
def value? (x : Float) : Option ℚ := valueOf? x.toModel.unpack

/-- Canonical numbers are ordered by their values. -/
lemma lt_iff_of_valueOf? {u v : UnpackedFloat} {a b : ℚ}
    (hu : ∀ {sign m e hm}, u = .finite sign m e hm → IsCanonical m e)
    (hv : ∀ {sign m e hm}, v = .finite sign m e hm → IsCanonical m e)
    (ha : valueOf? u = some a) (hb : valueOf? v = some b) : u.lt v = true ↔ a < b := by
  rw [UnpackedFloat.lt, beq_iff_eq]
  obtain ⟨sign, rfl, rfl⟩ | ⟨sign, m, e, hm, rfl, -⟩ := of_valueOf? ha <;>
    obtain ⟨sign', rfl, rfl⟩ | ⟨sign', n, f, hn, rfl, -⟩ := of_valueOf? hb
  · simp [UnpackedFloat.compare]
  · cases sign' <;> cases hb
    · simp [UnpackedFloat.compare, (scaled_pos hn f).le]
    · simp [UnpackedFloat.compare, scaled_pos hn f]
  · cases sign <;> cases ha
    · simp [UnpackedFloat.compare, scaled_pos hm e]
    · simp [UnpackedFloat.compare, (scaled_pos hm e).le]
  · have hlt := (hu rfl).compare_eq_lt_iff (hv rfl)
    have hgt := (hv rfl).compare_eq_lt_iff (hu rfl)
    have hswap := swap_compare_then m n e f
    have hm' := scaled_pos hm e
    have hn' := scaled_pos hn f
    cases sign <;> cases sign' <;> cases ha <;> cases hb
    · simp [UnpackedFloat.compare, hswap, hgt]
    · simp [UnpackedFloat.compare]
      linarith
    · simp [UnpackedFloat.compare]
      linarith
    · simp [UnpackedFloat.compare, hlt]

/-- Numbers are compared as they are unpacked. -/
lemma lt_iff_unpack {x y : Float} : x < y ↔ x.toModel.unpack.lt y.toModel.unpack = true :=
  decide_eq_true_iff

/-- Finite numbers are ordered by their values. -/
lemma lt_iff_of_value? {x y : Float} {a b : ℚ} (ha : value? x = some a) (hb : value? y = some b) :
    x < y ↔ a < b :=
  lt_iff_unpack.trans <| lt_iff_of_valueOf? (fun h => (isCanonical_of_unpack h).1)
    (fun h => (isCanonical_of_unpack h).1) ha hb

/-- An infinite or an undefined number has no value. -/
lemma value?_eq_none_iff {x : Float} :
    value? x = none ↔ x.toModel.unpack = .notANumber ∨ ∃ sign, x.toModel.unpack = .infinity sign := by
  rw [value?]
  cases x.toModel.unpack with
  | zero sign => simp [valueOf?]
  | finite sign m e hm => cases sign <;> simp [valueOf?]
  | infinity sign => simp [valueOf?]
  | notANumber => simp [valueOf?]

/-- A finite number lies between the infinities. -/
lemma lt_of_unpack_infinity {x y : Float} {b : ℚ} (hy : value? y = some b) :
    (x.toModel.unpack = .infinity .negative → x < y) ∧
      (x.toModel.unpack = .infinity .positive → y < x) := by
  rw [lt_iff_unpack, lt_iff_unpack]
  obtain ⟨sign, hunpack, -⟩ | ⟨sign, m, e, hm, hunpack, -⟩ := of_valueOf? hy
  all_goals rw [hunpack]
  · exact ⟨fun h => by rw [h]; rfl, fun h => by rw [h]; rfl⟩
  · exact ⟨fun h => by rw [h]; rfl, fun h => by rw [h]; cases sign <;> rfl⟩

/-- What is defined, and neither below nor above finite numbers, is finite. -/
lemma exists_value?_of_not_lt {x low high : Float} {a b : ℚ} (hlow : value? low = some a)
    (hhigh : value? high = some b) (hx : x.toModel.unpack ≠ .notANumber) (ha : ¬ x < low)
    (hb : ¬ high < x) : ∃ c, value? x = some c ∧ a ≤ c ∧ c ≤ b := by
  cases hvalue : value? x with
  | none =>
    obtain hnan | ⟨_ | _, hinfinite⟩ := value?_eq_none_iff.1 hvalue
    · exact absurd hnan hx
    · exact absurd ((lt_of_unpack_infinity hlow).1 hinfinite) ha
    · exact absurd ((lt_of_unpack_infinity hhigh).2 hinfinite) hb
  | some c =>
    rw [lt_iff_of_value? hvalue hlow, not_lt] at ha
    rw [lt_iff_of_value? hhigh hvalue, not_lt] at hb
    exact ⟨c, rfl, ha, hb⟩

end RoadMatching.Binary64
