import RoadMatching.Proofs.Number.Value

/-!
Results of operations on binary64 numbers, rounded to the nearest number.

All that is shown of rounding is that it does not go too far: what is less than half a unit above a
number of the format is rounded to at most that number. This bounds sums of any length, since a number
that is small enough adds nothing to one that is great enough.

* `IsNearest.scaled_le`: the bound, for whatever is at most half a unit above what is rounded.
* `isUpTo_roundWithAccuracy`: the bound for the rounding of the format.
* `exists_value?_add`, `exists_value?_sub`, `exists_value?_mul`: sums, differences and products.
-/

namespace RoadMatching.Binary64

open Float.Model (Format UnpackedFloat totalExponent)
open Float.Model.UnpackedFloat (ExtendedMantissa roundWithAccuracy shiftToTargetExponent)

/-! ### Nearest numbers -/

/-- Of `q * 2 ^ t`, as the nearest number to `x`, that it is at most half a unit above `x`. Unless `t`
is the least exponent, both take all bits of the mantissa. -/
structure IsNearest (q : ℕ) (t : ℤ) (x : ℚ) : Prop where
  mantissa : q ≤ 2 ^ 53
  exponent : -1074 ≤ t
  nearest : scaled q t ≤ x + 2 ^ t / 2
  normal : t = -1074 ∨ 2 ^ 52 ≤ q ∧ scaled (2 ^ 52) t ≤ x

/-- Less than half a unit above a canonical number, the nearest number is at most that number. -/
lemma IsNearest.scaled_le {q n : ℕ} {t f : ℤ} {x : ℚ} (h : IsNearest q t x) (hn : IsCanonical n f)
    (hx : x < scaled n f + 2 ^ f / 2) : scaled q t ≤ scaled n f := by
  have hsucc : ∀ e : ℤ, scaled (n + 1) e = scaled n e + 2 ^ e := by
    intro e
    rw [scaled, scaled, Nat.cast_add_one, add_one_mul]
  have hnearest := h.nearest
  have hleast := h.exponent
  rcases lt_trichotomy t f with hlt | rfl | hlt
  · exact scaled_le_of_exponent_lt h.mantissa (hn.normal.resolve_left (by omega)) hlt
  · have hle : scaled q t < scaled (n + 1) t := by
      rw [hsucc]
      linarith
    exact mul_le_mul_of_nonneg_right
      (Nat.cast_le.2 (Nat.le_of_lt_succ (scaled_lt_scaled_iff.1 hle))) (zpow_pos two_pos t).le
  · -- then `x` is too great
    obtain ⟨-, hgreat⟩ := h.normal.resolve_left (by have := hn.exponent; omega)
    have hle : scaled (n + 1) f ≤ scaled (2 ^ 52) t :=
      scaled_le_of_exponent_lt hn.mantissa le_rfl hlt
    have hpos : (0 : ℚ) < 2 ^ f := zpow_pos two_pos f
    rw [hsucc] at hle
    linarith

/-- A canonical number is the nearest to itself. -/
lemma IsCanonical.isNearest {m : ℕ} {e : ℤ} (h : IsCanonical m e) : IsNearest m e (scaled m e) where
  mantissa := h.mantissa.le
  exponent := h.exponent
  nearest := le_add_of_nonneg_right (half_pos (zpow_pos two_pos e)).le
  normal := h.normal.imp_right fun hm =>
    ⟨hm, mul_le_mul_of_nonneg_right (mod_cast hm) (zpow_pos two_pos e).le⟩

/-! ### Rounding -/

/-- What is left of an exact mantissa after a shift. -/
def shifted (m k : ℕ) : ExtendedMantissa := (⟨m, false, false⟩ : ExtendedMantissa) >>> k

/-- A shift is a division. If it shifts out a one last, then the remainder is at least one half. -/
lemma shifted_spec (m k : ℕ) :
    (shifted m k).mantissa = m / 2 ^ k ∧
      ((shifted m k).roundBit = true → 2 ^ k ≤ 2 * (m % 2 ^ k)) := by
  induction k with
  | zero => exact ⟨(Nat.div_one m).symm, fun h => by cases h⟩
  | succ k ih =>
    have hstep : shifted m (k + 1) = (shifted m k).shiftRightOne := rfl
    rw [hstep, ExtendedMantissa.shiftRightOne, ih.1]
    refine ⟨by rw [Nat.div_div_eq_div_mul, ← Nat.pow_succ], fun hbit => ?_⟩
    have hodd : m / 2 ^ k % 2 = 1 := by simpa using hbit
    rw [Nat.mod_pow_succ, hodd, Nat.pow_succ]
    omega

/-- The nearest mantissa after a shift. -/
lemma roundedMantissa_shifted (m k : ℕ) :
    m / 2 ^ k ≤ (shifted m k).roundedMantissa ∧ (shifted m k).roundedMantissa ≤ m / 2 ^ k + 1 ∧
      2 * ((shifted m k).roundedMantissa * 2 ^ k) ≤ 2 * m + 2 ^ k := by
  obtain ⟨hmantissa, hbit⟩ := shifted_spec m k
  have hdiv := Nat.div_add_mod' m (2 ^ k)
  rw [← hmantissa] at hdiv ⊢
  generalize shifted m k = em at *
  obtain ⟨n, bit, sticky⟩ := em
  cases bit with
  | false =>
    have hrounded : (⟨n, false, sticky⟩ : ExtendedMantissa).roundedMantissa = n := by
      cases sticky <;> rfl
    rw [hrounded]
    exact ⟨le_rfl, n.le_succ, by dsimp only at hdiv; omega⟩
  | true =>
    have hhalf := hbit rfl
    have hrounded : n ≤ (⟨n, true, sticky⟩ : ExtendedMantissa).roundedMantissa ∧
        (⟨n, true, sticky⟩ : ExtendedMantissa).roundedMantissa ≤ n + 1 := by
      cases sticky with
      | false =>
        show n ≤ n + n % 2 ∧ n + n % 2 ≤ n + 1
        omega
      | true => exact ⟨n.le_succ, le_rfl⟩
    refine ⟨hrounded.1, hrounded.2, ?_⟩
    have hle := Nat.mul_le_mul_right (2 ^ k) hrounded.2
    rw [Nat.add_one_mul] at hle
    dsimp only at hdiv
    omega

/-- The exponent of the number nearest to `m * 2 ^ e`. -/
def target (m : ℕ) (e : ℤ) : ℤ := max (m.log2 + e - 52) (-1074)

lemma targetExponent_eq (m : ℕ) (e : ℤ) :
    Format.binary64.targetExponent (totalExponent m e) = target m e := by
  simp only [Format.targetExponent, totalExponent, target]
  rw [show ((Format.binary64.mantissaBits : ℕ) : ℤ) = 53 from rfl,
    show Format.binary64.minExponent = -1074 from rfl]
  omega

/-- The first shift of the rounding, to the exponent of the nearest number. -/
lemma shiftToTargetExponent_eq {m : ℕ} {e : ℤ} (he : e ≤ target m e) :
    shiftToTargetExponent .binary64 m e .exact = (shifted m (target m e - e).toNat, target m e) := by
  rw [shiftToTargetExponent, targetExponent_eq]
  refine Prod.ext rfl ?_
  show e + ((target m e - e).toNat : ℤ) = _
  omega

/-- A canonical mantissa is not shifted again, and that of the next power of two is halved. -/
lemma shiftToTargetExponent_rounded {q : ℕ} {t : ℤ} (hq : q ≤ 2 ^ 53) (ht : -1074 ≤ t) :
    shiftToTargetExponent .binary64 q t .exact =
      if q < 2 ^ 53 then (⟨q, false, false⟩, t) else (⟨2 ^ 52, false, false⟩, t + 1) := by
  split_ifs with hlt
  · have hlog : q.log2 < 53 := by
      rcases Nat.eq_zero_or_pos q with rfl | hpos
      · decide
      · exact (Nat.log2_lt hpos.ne').2 hlt
    have hshift : (target q t - t).toNat = 0 := by
      rw [target]
      omega
    rw [shiftToTargetExponent, targetExponent_eq, UnpackedFloat.shiftToExponent, hshift]
    exact Prod.ext rfl (add_zero t)
  · obtain rfl : q = 2 ^ 53 := by omega
    have htarget : target (2 ^ 53) t = t + 1 := by
      rw [target, Nat.log2_two_pow]
      omega
    rw [shiftToTargetExponent_eq (by omega), htarget, add_sub_cancel_left]
    rfl

/-- The mantissa after the first shift makes the nearest number. -/
lemma isNearest_shifted {m : ℕ} {e : ℤ} (hm : 0 < m) (he : e ≤ target m e) :
    IsNearest (shifted m (target m e - e).toNat).roundedMantissa (target m e) (scaled m e) := by
  set t := target m e with htarget
  set k := (t - e).toNat
  rw [target] at htarget
  have hk : t = e + k := by omega
  obtain ⟨hlow, hhigh, hnearest⟩ := roundedMantissa_shifted m k
  set q := (shifted m k).roundedMantissa
  have hscaled : ∀ x y : ℚ, x * 2 ^ k ≤ y → x * 2 ^ t ≤ y * 2 ^ e := by
    intro x y hle
    rw [hk, add_comm, zpow_add₀ two_ne_zero, zpow_natCast, ← mul_assoc]
    exact mul_le_mul_of_nonneg_right hle (zpow_pos two_pos e).le
  refine ⟨?_, by omega, ?_, ?_⟩
  · have hlt : m / 2 ^ k < 2 ^ 53 := by
      rw [Nat.div_lt_iff_lt_mul (Nat.two_pow_pos k), ← pow_add]
      exact (Nat.log2_lt hm.ne').1 (by omega)
    omega
  · have hcast : (2 : ℚ) * (q * 2 ^ k) ≤ 2 * m + 2 ^ k := mod_cast hnearest
    have hle := hscaled (q - 1 / 2) m (by linarith)
    rw [scaled, scaled]
    linarith
  · by_cases hleast : t = -1074
    · exact .inl hleast
    · have hle : 2 ^ 52 * 2 ^ k ≤ m := by
        rw [← pow_add, show 52 + k = m.log2 by omega]
        exact Nat.log2_self_le hm.ne'
      refine .inr ⟨((Nat.le_div_iff_mul_le (Nat.two_pow_pos k)).2 hle).trans hlow, ?_⟩
      exact hscaled _ _ (mod_cast hle)

/-- Zero, or a positive canonical number that is not above another one. -/
def IsUpTo (n : ℕ) (f : ℤ) : UnpackedFloat → Prop
  | .zero _ => True
  | .finite .positive q t _ => IsCanonical q t ∧ scaled q t ≤ scaled n f
  | _ => False

/-- What is less than half a unit above a canonical number, is rounded to at most that number. -/
lemma isUpTo_roundWithAccuracy {m n : ℕ} {e f : ℤ} (hm : 0 < m) (he : e ≤ target m e)
    (hn : IsCanonical n f) (h : scaled m e < scaled n f + 2 ^ f / 2) :
    IsUpTo n f (roundWithAccuracy .binary64 .positive m e .exact) := by
  have hnearest := isNearest_shifted hm he
  rw [roundWithAccuracy, shiftToTargetExponent_eq he]
  dsimp only
  generalize (shifted m (target m e - e).toNat).roundedMantissa = q at *
  generalize target m e = t at *
  have hle := hnearest.scaled_le hn h
  rw [shiftToTargetExponent_rounded hnearest.mantissa hnearest.exponent]
  by_cases hlt : q < 2 ^ 53
  · rw [if_pos hlt]
    split
    · trivial
    · exact ⟨⟨hlt, hnearest.exponent, hnearest.normal.imp_right And.left⟩, hle⟩
  · rw [if_neg hlt]
    obtain rfl : q = 2 ^ 53 := le_antisymm hnearest.mantissa (not_lt.1 hlt)
    have hexponent := hnearest.exponent
    have hcanonical : IsCanonical (2 ^ 52) (t + 1) := ⟨by decide, by omega, .inr le_rfl⟩
    refine ⟨hcanonical, le_trans (le_of_eq ?_) hle⟩
    rw [scaled, scaled, zpow_add_one₀ two_ne_zero]
    push_cast
    ring

/-- The logarithm of a shifted mantissa. -/
lemma log2_shiftLeft {m : ℕ} (hm : 0 < m) (k : ℕ) : (m <<< k).log2 = m.log2 + k := by
  have hlow := Nat.log2_self_le hm.ne'
  have hhigh := Nat.lt_log2_self (n := m)
  rw [Nat.shiftLeft_eq, Nat.log2_eq_iff (by positivity), add_right_comm, pow_add, pow_add]
  exact ⟨Nat.mul_le_mul_right _ hlow, Nat.mul_lt_mul_of_pos_right hhigh (Nat.two_pow_pos k)⟩

/-- What is less than half a unit above a canonical number, is at most that number when it has been
brought to an exponent and rounded. -/
lemma isUpTo_normalize {n : ℕ} {i e f : ℤ} (sign : UnpackedFloat.Sign) (hi : 0 ≤ i)
    (hn : IsCanonical n f) (h : (i : ℚ) * 2 ^ e < scaled n f + 2 ^ f / 2) :
    IsUpTo n f (UnpackedFloat.normalize .binary64 i e sign) := by
  obtain ⟨m, rfl⟩ := Int.eq_ofNat_of_zero_le hi
  rcases Nat.eq_zero_or_pos m with rfl | hm
  · trivial
  · have hcompare : compare (m : ℤ) 0 = .gt := compare_gt_iff_gt.2 (mod_cast hm)
    rw [UnpackedFloat.normalize, hcompare]
    dsimp only
    rw [UnpackedFloat.round, targetExponent_eq, Int.toNat_natCast]
    have htarget : target (m <<< (e - target m e).toNat) (e - (e - target m e).toNat) =
        target m e := by
      rw [target, log2_shiftLeft hm, target]
      omega
    refine isUpTo_roundWithAccuracy (by rw [Nat.shiftLeft_eq]; positivity) ?_ hn ?_
    · rw [htarget]
      omega
    · rw [scaled_shiftLeft]
      exact_mod_cast h

/-- Such a number is finite when it is packed. -/
lemma exists_value?_of_isUpTo {n : ℕ} {f : ℤ} {u : UnpackedFloat} (hn : IsCanonical n f)
    (hf : f ≤ 971) (h : IsUpTo n f u) :
    ∃ c, value? (.ofModel (.pack u)) = some c ∧ 0 ≤ c ∧ c ≤ scaled n f := by
  cases u with
  | zero sign =>
    refine ⟨0, ?_, le_rfl, scaled_nonneg n f⟩
    cases sign <;> rfl
  | finite sign q t hq =>
    cases sign with
    | negative => exact h.elim
    | positive =>
      obtain ⟨hcanonical, hle⟩ := h
      have ht : t ≤ 971 := by
        by_contra hlt
        exact absurd hle (hn.scaled_lt hcanonical (by omega)).not_ge
      refine ⟨scaled q t, ?_, scaled_nonneg q t, hle⟩
      show valueOf? (Float.Model.pack _).unpack = _
      rw [unpack_pack_finite hq hcanonical, if_pos ht]
      rfl
  | infinity sign => exact h.elim
  | notANumber => exact h.elim

/-! ### Sums, differences and products -/

/-- A signed mantissa that is shifted to the left. -/
lemma apply_shiftLeft (sign : UnpackedFloat.Sign) (m k : ℕ) (e : ℤ) :
    ((sign.apply (m <<< k : ℕ) : ℤ) : ℚ) * 2 ^ (e - k) = ((sign.apply m : ℤ) : ℚ) * 2 ^ e := by
  have hshift := scaled_shiftLeft m k e
  rw [scaled, scaled] at hshift
  generalize m <<< k = n at *
  cases sign with
  | positive => exact_mod_cast hshift
  | negative =>
    show ((-(n : ℤ) : ℤ) : ℚ) * _ = ((-(m : ℤ) : ℤ) : ℚ) * _
    push_cast at hshift ⊢
    rw [neg_mul, neg_mul, hshift]

/-- What is unpacked as finite is canonical. -/
def IsUnpacked (u : UnpackedFloat) : Prop :=
  ∀ sign m e hm, u = .finite sign m e hm → IsCanonical m e

/-- A number that is not negative and less than half a unit above a canonical number, is at most that
number. -/
lemma isUpTo_of_valueOf? {n : ℕ} {f : ℤ} {u : UnpackedFloat} {a : ℚ} (hu : IsUnpacked u)
    (hvalue : valueOf? u = some a) (ha : 0 ≤ a) (hn : IsCanonical n f)
    (h : a < scaled n f + 2 ^ f / 2) : IsUpTo n f u := by
  obtain ⟨sign, rfl, -⟩ | ⟨m, e, hm, rfl, rfl⟩ := of_valueOf?_of_nonneg hvalue ha
  · trivial
  · have hcanonical := hu _ _ _ _ rfl
    exact ⟨hcanonical, hcanonical.isNearest.scaled_le hn h⟩

/-- A sum that is not negative and less than half a unit above a canonical number, is at most that
number. -/
lemma isUpTo_add {n : ℕ} {f : ℤ} {u v : UnpackedFloat} {a b : ℚ} (hu : IsUnpacked u)
    (hv : IsUnpacked v) (hvalue : valueOf? u = some a) (hvalue' : valueOf? v = some b)
    (hsum : 0 ≤ a + b) (hn : IsCanonical n f) (h : a + b < scaled n f + 2 ^ f / 2) :
    IsUpTo n f (UnpackedFloat.add .binary64 u v) := by
  obtain ⟨sign, rfl, rfl⟩ | ⟨sign, m, e, hm, rfl, ha⟩ := of_valueOf? hvalue
  · rw [zero_add] at hsum h
    obtain ⟨sign', rfl, rfl⟩ | ⟨sign', m, e, hm, rfl, -⟩ := of_valueOf? hvalue'
    · rw [UnpackedFloat.add]
      split <;> trivial
    · exact isUpTo_of_valueOf? hv hvalue' hsum hn h
  · obtain ⟨sign', rfl, rfl⟩ | ⟨sign', m', e', hm', rfl, hb⟩ := of_valueOf? hvalue'
    · rw [add_zero] at hsum h
      exact isUpTo_of_valueOf? hu hvalue hsum hn h
    · rw [UnpackedFloat.add]
      simp only [UnpackedFloat.decreaseExponent]
      -- both mantissas are brought to the lesser exponent, at which they are added exactly
      have hexponent : e - (e - min e e').toNat = min e e' := by omega
      have hexponent' : e' - (e' - min e e').toNat = min e e' := by omega
      have hexact : ((sign.apply (m <<< (e - min e e').toNat : ℕ) +
          sign'.apply (m' <<< (e' - min e e').toNat : ℕ) : ℤ) : ℚ) * 2 ^ min e e' = a + b := by
        rw [Int.cast_add, add_mul, ha, hb, ← apply_shiftLeft sign m (e - min e e').toNat,
          ← apply_shiftLeft sign' m' (e' - min e e').toNat, hexponent, hexponent']
      refine isUpTo_normalize _ ?_ hn (hexact ▸ h)
      rw [← hexact] at hsum
      exact_mod_cast nonneg_of_mul_nonneg_left hsum (zpow_pos two_pos _)

/-- A difference is the sum with the negated number. -/
lemma sub_eq_add (u v : UnpackedFloat) :
    UnpackedFloat.sub .binary64 u v = UnpackedFloat.add .binary64 u v.neg := by
  have happly : ∀ (sign : UnpackedFloat.Sign) (i : ℤ), (-sign).apply i = -sign.apply i := by
    rintro (_ | _) i
    · exact (neg_neg i).symm
    · rfl
  cases u <;> cases v <;> simp [UnpackedFloat.sub, UnpackedFloat.add, UnpackedFloat.neg, happly,
    sub_eq_add_neg]

/-- The value of a negated number. -/
lemma valueOf?_neg {u : UnpackedFloat} {a : ℚ} (h : valueOf? u = some a) :
    valueOf? u.neg = some (-a) := by
  obtain ⟨sign, rfl, rfl⟩ | ⟨sign, m, e, hm, rfl, -⟩ := of_valueOf? h
  · rw [neg_zero]
    rfl
  · cases sign <;> cases h
    · rw [neg_neg]
      rfl
    · rfl

/-- A negated number keeps its mantissa. -/
lemma IsUnpacked.neg {u : UnpackedFloat} (h : IsUnpacked u) : IsUnpacked u.neg := by
  intro sign m e hm heq
  cases u with
  | finite sign' m' e' hm' =>
    cases heq
    exact h _ _ _ _ rfl
  | zero sign' => cases heq
  | infinity sign' => cases heq
  | notANumber => cases heq

/-- The product of canonical mantissas has enough bits, unless both exponents are the least one. -/
lemma exponent_le_target_mul {m m' : ℕ} {e e' : ℤ} (hm : 0 < m) (hm' : 0 < m')
    (h : IsCanonical m e) (h' : IsCanonical m' e') : e + e' ≤ target (m * m') (e + e') := by
  have hbits : 2 ^ 52 ≤ m * m' → e + e' ≤ target (m * m') (e + e') := fun h => by
    have hlog := (Nat.le_log2 (Nat.mul_pos hm hm').ne').2 h
    rw [target]
    omega
  rcases h.normal with he | hgreat
  · rcases h'.normal with he' | hgreat
    · rw [target]
      omega
    · exact hbits (hgreat.trans (Nat.le_mul_of_pos_left m' hm))
  · exact hbits (hgreat.trans (Nat.le_mul_of_pos_right m hm'))

/-- A product of numbers that are not negative, if it is less than half a unit above a canonical
number, is at most that number. -/
lemma isUpTo_mul {n : ℕ} {f : ℤ} {u v : UnpackedFloat} {a b : ℚ} (hu : IsUnpacked u)
    (hv : IsUnpacked v) (hvalue : valueOf? u = some a) (hvalue' : valueOf? v = some b) (ha : 0 ≤ a)
    (hb : 0 ≤ b) (hn : IsCanonical n f) (h : a * b < scaled n f + 2 ^ f / 2) :
    IsUpTo n f (UnpackedFloat.mul .binary64 u v) := by
  obtain ⟨sign, rfl, rfl⟩ | ⟨m, e, hm, rfl, rfl⟩ := of_valueOf?_of_nonneg hvalue ha <;>
    obtain ⟨sign', rfl, rfl⟩ | ⟨m', e', hm', rfl, rfl⟩ := of_valueOf?_of_nonneg hvalue' hb
  · trivial
  · trivial
  · trivial
  · refine isUpTo_roundWithAccuracy (Nat.mul_pos hm hm')
      (exponent_le_target_mul hm hm' (hu _ _ _ _ rfl) (hv _ _ _ _ rfl)) hn (lt_of_eq_of_lt ?_ h)
    rw [scaled, scaled, scaled, zpow_add₀ two_ne_zero]
    push_cast
    ring

/-! ### Results of operations -/

variable {x y : Float} {a b : ℚ} {n : ℕ} {f : ℤ}

lemma isUnpacked_unpack (x : Float) : IsUnpacked x.toModel.unpack :=
  fun _ _ _ _ h => (isCanonical_of_unpack h).1

/-- A sum that is not negative, and less than half a unit above a number of the format, is finite and
at most that number. -/
lemma exists_value?_add (hx : value? x = some a) (hy : value? y = some b) (hsum : 0 ≤ a + b)
    (hn : IsCanonical n f) (hf : f ≤ 971) (h : a + b < scaled n f + 2 ^ f / 2) :
    ∃ c, value? (x + y) = some c ∧ 0 ≤ c ∧ c ≤ scaled n f :=
  exists_value?_of_isUpTo hn hf
    (isUpTo_add (isUnpacked_unpack x) (isUnpacked_unpack y) hx hy hsum hn h)

/-- So is a difference. -/
lemma exists_value?_sub (hx : value? x = some a) (hy : value? y = some b) (hdifference : 0 ≤ a - b)
    (hn : IsCanonical n f) (hf : f ≤ 971) (h : a - b < scaled n f + 2 ^ f / 2) :
    ∃ c, value? (x - y) = some c ∧ 0 ≤ c ∧ c ≤ scaled n f := by
  rw [sub_eq_add_neg] at hdifference h
  refine exists_value?_of_isUpTo hn hf ?_
  rw [sub_eq_add]
  exact isUpTo_add (isUnpacked_unpack x) (isUnpacked_unpack y).neg hx (valueOf?_neg hy) hdifference
    hn h

/-- So is a product of numbers that are not negative. -/
lemma exists_value?_mul (hx : value? x = some a) (hy : value? y = some b) (ha : 0 ≤ a) (hb : 0 ≤ b)
    (hn : IsCanonical n f) (hf : f ≤ 971) (h : a * b < scaled n f + 2 ^ f / 2) :
    ∃ c, value? (x * y) = some c ∧ 0 ≤ c ∧ c ≤ scaled n f :=
  exists_value?_of_isUpTo hn hf
    (isUpTo_mul (isUnpacked_unpack x) (isUnpacked_unpack y) hx hy ha hb hn h)

end RoadMatching.Binary64
