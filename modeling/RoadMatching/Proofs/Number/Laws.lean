import RoadMatching.Geo.Earth
import RoadMatching.Proofs.Number.Finite
import RoadMatching.Proofs.Number.Rounding

/-!
Binary64 numbers obey the laws that are assumed of numbers, and the distances on the earth those that
are assumed of distances.

* `comparable_iff`, `isFinite_iff`, `inUnit_iff`: the predicates of the laws, told by the values.
* `Binary64.finiteLaws`: the laws of numbers.
* `Binary64.distanceLaws`: those of distances, given the range of the inverse sine.
-/

namespace RoadMatching.Binary64

open Float.Model (UnpackedFloat)

/-! ### Kinds of numbers -/

lemma comparable_iff {x : Binary64} :
    (x == x) = true ↔ x.value.toModel.unpack ≠ .notANumber := by
  show (x.value.toModel.unpack.compare x.value.toModel.unpack == some .eq) = true ↔ _
  cases x.value.toModel.unpack with
  | notANumber => simp [UnpackedFloat.compare]
  | infinity sign => cases sign <;> simp [UnpackedFloat.compare] <;> rfl
  | zero sign => simp [UnpackedFloat.compare]
  | finite sign m e hm => cases sign <;> simp [UnpackedFloat.compare]

lemma isFinite_iff {x : Binary64} : isFinite x = true ↔ ∃ a, value? x.value = some a := by
  show (kind x.value == .finite) = true ↔ _
  rw [kind, value?]
  cases x.value.toModel.unpack with
  | notANumber => simp [valueOf?]
  | infinity sign => simp [valueOf?]
  | zero sign => simp [valueOf?]
  | finite sign m e hm => cases sign <;> simp [valueOf?]

/-- A finite number is comparable. -/
lemma unpack_ne_notANumber_of_value? {x : Float} {a : ℚ} (h : value? x = some a) :
    x.toModel.unpack ≠ .notANumber := by
  intro hnan
  rw [value?, hnan] at h
  cases h

lemma isNaN_eq_false {x : Float} (h : x.toModel.unpack ≠ .notANumber) : x.isNaN = false := by
  show x.toModel.unpack.isNaN = false
  cases hx : x.toModel.unpack with
  | notANumber => exact absurd hx h
  | infinity _ | zero _ | finite _ _ _ _ => rfl

/-- Numbers that are told apart are comparable. -/
lemma unpack_ne_notANumber_of_lt {x y : Float} (h : x < y) :
    x.toModel.unpack ≠ .notANumber ∧ y.toModel.unpack ≠ .notANumber := by
  rw [lt_iff_unpack] at h
  refine ⟨fun hnan => ?_, fun hnan => ?_⟩
  · rw [hnan] at h
    cases h
  · rw [hnan] at h
    cases hx : x.toModel.unpack <;> rw [hx] at h <;> cases h

/-- A comparison is turned around with its operands. -/
lemma compare_swap (u v : UnpackedFloat) :
    v.compare u = (u.compare v).map Ordering.swap := by
  cases u with
  | notANumber => cases v <;> rfl
  | infinity sign =>
    cases v with
    | infinity sign' => cases sign <;> cases sign' <;> rfl
    | finite sign' n f hn => cases sign <;> cases sign' <;> rfl
    | zero _ | notANumber => cases sign <;> rfl
  | zero sign =>
    cases v with
    | infinity sign' | finite sign' n f hn => cases sign' <;> rfl
    | zero _ | notANumber => rfl
  | finite sign m e hm =>
    cases v with
    | infinity sign' => cases sign <;> cases sign' <;> rfl
    | zero _ | notANumber => cases sign <;> rfl
    | finite sign' n f hn =>
      cases sign <;> cases sign'
      · exact congrArg (fun o => some o.swap) (swap_compare_then m n e f).symm
      · rfl
      · rfl
      · exact congrArg some (swap_compare_then m n e f).symm

/-- Of two numbers at most one is below the other. -/
lemma not_lt_of_lt {x y : Float} (h : x < y) : ¬ y < x := by
  rw [lt_iff_unpack, UnpackedFloat.lt, beq_iff_eq] at h ⊢
  rw [compare_swap, h]
  decide

/-! ### Constants -/

/-- The value of a canonical number. -/
lemma value?_pack {x : Float} {m : ℕ} {e : ℤ} {hm : 0 < m} (h : IsCanonical m e) (he : e ≤ 971)
    (hx : x.toModel = .pack (.finite .positive m e hm)) : value? x = some (scaled m e) := by
  rw [value?, hx, unpack_pack_finite hm h, if_pos he]
  rfl

lemma unpack_zero : (0 : Float).toModel.unpack = .zero .positive := rfl

lemma value?_zero : value? (0 : Float) = some 0 := rfl

lemma value?_one : value? (1 : Binary64).value = some 1 := by
  have hone : (1 : Float).toModel = .pack (.finite .positive (2 ^ 52) (-52) (by decide)) := rfl
  rw [show (1 : ℚ) = scaled (2 ^ 52) (-52) by norm_num [scaled]]
  exact value?_pack ⟨by decide, by decide, .inr le_rfl⟩ (by decide) hone

lemma value?_two : value? (2 : Float) = some 2 := by
  have htwo : (2 : Float).toModel = .pack (.finite .positive (2 ^ 52) (-51) (by decide)) := rfl
  rw [show (2 : ℚ) = scaled (2 ^ 52) (-51) by norm_num [scaled]]
  exact value?_pack ⟨by decide, by decide, .inr le_rfl⟩ (by decide) htwo

lemma value?_farthest : value? (farthest : Binary64).value = some 67108864 := by
  have hfarthest : (Float.ofNat 67108864).toModel =
      .pack (.finite .positive (2 ^ 52) (-26) (by decide)) := rfl
  rw [show (67108864 : ℚ) = scaled (2 ^ 52) (-26) by norm_num [scaled]]
  exact value?_pack ⟨by decide, by decide, .inr le_rfl⟩ (by decide) hfarthest

lemma value?_radius : value? Haversine.radius = some (scaled 6840818609632051 (-30)) := by
  have hradius : Haversine.radius.toModel =
      .pack (.finite .positive 6840818609632051 (-30) (by decide)) := rfl
  exact value?_pack ⟨by decide, by decide, .inr (by decide)⟩ (by decide) hradius

/-! ### The unit interval -/

lemma inUnit_iff {x : Binary64} : InUnit x ↔ ∃ a, value? x.value = some a ∧ 0 ≤ a ∧ a ≤ 1 := by
  refine ⟨fun h => ?_, fun ⟨a, hx, hlow, hhigh⟩ => ?_⟩
  · exact exists_value?_of_not_lt value?_zero value?_one (comparable_iff.1 h.comparable) h.nonneg
      h.le_one
  · exact {
      comparable := comparable_iff.2 (unpack_ne_notANumber_of_value? hx)
      nonneg := fun h => absurd ((lt_iff_of_value? hx value?_zero).1 h) hlow.not_gt
      le_one := fun h => absurd ((lt_iff_of_value? value?_one hx).1 h) hhigh.not_gt }

/-- What is not below a number of the unit interval, but below one, is in it. -/
lemma inUnit_of_below {a x : Binary64} (ha : InUnit a) (hlow : ¬ x < a) (hhigh : x < 1) :
    InUnit x := by
  obtain ⟨b, hb, hpos, -⟩ := inUnit_iff.1 ha
  obtain ⟨c, hc, hle, hone⟩ := exists_value?_of_not_lt hb value?_one
    (unpack_ne_notANumber_of_lt hhigh).1 hlow (not_lt_of_lt hhigh)
  exact inUnit_iff.2 ⟨c, hc, hpos.trans hle, hone⟩

/-- What is not above a number of the unit interval, but above zero, is in it. -/
lemma inUnit_of_above {x b : Binary64} (hb : InUnit b) (hlow : 0 < x) (hhigh : ¬ b < x) :
    InUnit x := by
  obtain ⟨a, ha, -, hone⟩ := inUnit_iff.1 hb
  obtain ⟨c, hc, hpos, hle⟩ := exists_value?_of_not_lt value?_zero ha
    (unpack_ne_notANumber_of_lt hlow).2 (not_lt_of_lt hlow) hhigh
  exact inUnit_iff.2 ⟨c, hc, hpos, hle.trans hone⟩

/-- The complement of a number of the unit interval is in it. -/
lemma inUnit_complement {x : Binary64} (h : InUnit x) : InUnit (1 - x) := by
  obtain ⟨a, ha, hlow, hhigh⟩ := inUnit_iff.1 h
  have hone : scaled (2 ^ 52) (-52) = 1 := by norm_num [scaled]
  obtain ⟨c, hc, hpos, hle⟩ := exists_value?_sub value?_one ha (sub_nonneg.2 hhigh)
    (n := 2 ^ 52) (f := -52) ⟨by decide, by decide, .inr le_rfl⟩ (by decide)
    (by rw [hone]; norm_num; linarith)
  exact inUnit_iff.2 ⟨c, hc, hpos, hone ▸ hle⟩

/-! ### Sums -/

/-- The summands of a comparable sum are comparable. -/
lemma comparable_of_add {a b : Binary64} (h : (a + b == a + b) = true) :
    (a == a) = true ∧ (b == b) = true := by
  rw [comparable_iff] at h ⊢
  rw [comparable_iff]
  have hsum : (a + b).value.toModel = .pack (.add .binary64 a.value.toModel.unpack
      b.value.toModel.unpack) := rfl
  have hundefined : ∀ u : UnpackedFloat, UnpackedFloat.add .binary64 .notANumber u = .notANumber ∧
      UnpackedFloat.add .binary64 u .notANumber = .notANumber := by
    intro u
    cases u <;> exact ⟨rfl, rfl⟩
  refine ⟨fun hnan => h ?_, fun hnan => h ?_⟩
  · rw [hsum, hnan, (hundefined _).1]
    rfl
  · rw [hsum, hnan, (hundefined _).2]
    rfl

/-- The sum of distances is finite, since beyond a certain sum they add nothing more. -/
lemma exists_value?_foldl (xs : List Binary64)
    (h : ∀ x ∈ xs, (x == x) = true ∧ ¬ x < 0 ∧ ¬ farthest < x) :
    ∃ c, value? (xs.foldl (· + ·) 0).value = some c ∧ 0 ≤ c ∧ c ≤ scaled (2 ^ 52) 28 := by
  induction xs using List.reverseRecOn with
  | nil => exact ⟨0, value?_zero, le_rfl, scaled_nonneg _ _⟩
  | append_singleton rest x ih =>
    obtain ⟨c, hc, hpos, hle⟩ := ih fun y hy => h y (List.mem_append_left _ hy)
    obtain ⟨hcomparable, hnonneg, hfar⟩ := h x (List.mem_append_right _ List.mem_cons_self)
    obtain ⟨a, ha, hpos', hle'⟩ := exists_value?_of_not_lt value?_zero value?_farthest
      (comparable_iff.1 hcomparable) hnonneg hfar
    rw [List.foldl_append, List.foldl_cons, List.foldl_nil]
    refine exists_value?_add hc ha (add_nonneg hpos hpos') ⟨by decide, by decide, .inr le_rfl⟩
      (by decide) ?_
    have hunit : (67108864 : ℚ) < 2 ^ (28 : ℤ) / 2 := by norm_num
    exact (add_le_add hle hle').trans_lt ((add_lt_add_iff_left _).2 hunit)

/-! ### Quotients and remainders -/

/-- What is packed with no special exponent, is unpacked with its sign as a finite number. -/
lemma unpack_packComponents_cases (sign : UnpackedFloat.Sign) {exponent : BitVec 11}
    (mantissa : BitVec 52) (hspecial : exponent ≠ -1#11) :
    UnpackedFloat.unpack .binary64 (UnpackedFloat.packComponents .binary64 sign exponent mantissa) =
        .zero sign ∨
      ∃ n f hn, UnpackedFloat.unpack .binary64
        (UnpackedFloat.packComponents .binary64 sign exponent mantissa) = .finite sign n f hn := by
  by_cases hexponent : exponent = 0#11
  · subst hexponent
    by_cases hmantissa : mantissa = 0#52
    · subst hmantissa
      left
      cases sign <;> rfl
    · exact .inr ⟨_, _, _, unpack_packComponents_zero sign hmantissa⟩
  · exact .inr ⟨_, _, _, unpack_packComponents sign mantissa hspecial hexponent⟩

/-- What is packed of a finite number, in whatever form, is not undefined, and keeps its sign. -/
lemma unpack_pack_of_finite (sign : UnpackedFloat.Sign) (m : ℕ) (e : ℤ) (hm : 0 < m) :
    (Float.Model.pack (.finite sign m e hm)).unpack = .infinity sign ∨
      (Float.Model.pack (.finite sign m e hm)).unpack = .zero sign ∨
      ∃ n f hn, (Float.Model.pack (.finite sign m e hm)).unpack = .finite sign n f hn := by
  show UnpackedFloat.unpack .binary64 (UnpackedFloat.pack .binary64 (.finite sign m e hm)) = _ ∨
    UnpackedFloat.unpack .binary64 (UnpackedFloat.pack .binary64 (.finite sign m e hm)) = _ ∨
    ∃ n f hn, UnpackedFloat.unpack .binary64 (UnpackedFloat.pack .binary64 (.finite sign m e hm)) = _
  rw [UnpackedFloat.pack]
  dsimp only
  split_ifs with hlarge hbits
  · left
    cases sign <;> rfl
  · refine .inr (unpack_packComponents_cases sign _ fun h => ?_)
    have h : _ % 2 ^ 11 = 2047 := congrArg BitVec.toNat h
    change ¬ 2 ^ 11 ≤ _ at hlarge
    omega
  · exact .inr (unpack_packComponents_cases sign _ (by decide))

/-- The result of a rounding has the sign that it is given. -/
lemma roundWithAccuracy_cases (sign : UnpackedFloat.Sign) (m : ℕ) (e : ℤ)
    (accuracy : UnpackedFloat.Accuracy) :
    UnpackedFloat.roundWithAccuracy .binary64 sign m e accuracy = .zero sign ∨
      ∃ n f hn, UnpackedFloat.roundWithAccuracy .binary64 sign m e accuracy =
        .finite sign n f hn := by
  rw [UnpackedFloat.roundWithAccuracy]
  dsimp only
  split_ifs with hzero
  · exact .inl rfl
  · exact .inr ⟨_, _, Nat.pos_of_ne_zero hzero, rfl⟩

/-- What is defined is still so when it is packed. -/
lemma unpack_pack_ne_notANumber {u : UnpackedFloat} (h : u ≠ .notANumber) :
    (Float.Model.pack u).unpack ≠ .notANumber := by
  cases u with
  | notANumber => exact absurd rfl h
  | infinity sign => cases sign <;> exact UnpackedFloat.noConfusion
  | zero sign => cases sign <;> exact UnpackedFloat.noConfusion
  | finite sign m e hm =>
    obtain heq | heq | ⟨n, f, hn, heq⟩ := unpack_pack_of_finite sign m e hm <;>
    · rw [heq]
      exact UnpackedFloat.noConfusion

/-- A finite number has a comparable quotient by any number above zero. -/
lemma comparable_div {a b : Binary64} (ha : isFinite a = true) (hb : 0 < b) :
    (a / b == a / b) = true := by
  rw [comparable_iff]
  show (Float.Model.pack (.div .binary64 a.value.toModel.unpack b.value.toModel.unpack)).unpack ≠ _
  refine unpack_pack_ne_notANumber ?_
  obtain ⟨c, hc⟩ := isFinite_iff.1 ha
  obtain ⟨-, hdefined⟩ := unpack_ne_notANumber_of_lt hb
  have hnonzero : ∀ sign, b.value.toModel.unpack ≠ .zero sign := by
    intro sign hzero
    have hvalue : value? b.value = some 0 := by rw [value?, hzero]; rfl
    exact lt_irrefl 0 ((lt_iff_of_value? value?_zero hvalue).1 hb)
  cases hv : b.value.toModel.unpack with
  | zero sign => exact absurd hv (hnonzero sign)
  | notANumber => exact absurd hv hdefined
  | infinity sign =>
    obtain ⟨_, hu, -⟩ | ⟨_, _, _, _, hu, -⟩ := of_valueOf? hc <;>
    · rw [hu]
      exact UnpackedFloat.noConfusion
  | finite sign n f hn =>
    obtain ⟨_, hu, -⟩ | ⟨sign', m, e, hm, hu, -⟩ := of_valueOf? hc
    · rw [hu]
      exact UnpackedFloat.noConfusion
    · rw [hu, UnpackedFloat.div]
      generalize UnpackedFloat.divCore .binary64 m e n f = core
      obtain ⟨k, t, accuracy⟩ := core
      obtain heq | ⟨_, _, _, heq⟩ := roundWithAccuracy_cases (sign' / sign) k t accuracy <;>
      · dsimp only
        rw [heq]
        exact UnpackedFloat.noConfusion

/-- A number that is not below zero, and below a finite divisor, is its own remainder. -/
lemma truncatedRemainder_of_lt {x y : Float} {n : ℕ} {f : ℤ} {hn : 0 < n}
    (hy : y.toModel.unpack = .finite .positive n f hn) (hlow : ¬ x < 0) (hhigh : x < y) :
    truncatedRemainder x y = x := by
  have hvalue : value? y = some (scaled n f) := by rw [value?, hy]; rfl
  obtain ⟨c, hc, hpos, -⟩ := exists_value?_of_not_lt value?_zero hvalue
    (unpack_ne_notANumber_of_lt hhigh).1 hlow (not_lt_of_lt hhigh)
  have hlt := (lt_iff_of_value? hc hvalue).1 hhigh
  rw [truncatedRemainder, hy]
  obtain ⟨sign, hx, -⟩ | ⟨m, e, hm, hx, rfl⟩ := of_valueOf?_of_nonneg hc hpos
  · rw [hx]
  · have hexponent : e - (e - min e f).toNat = min e f := by omega
    have hexponent' : f - (f - min e f).toNat = min e f := by omega
    rw [← scaled_shiftLeft m (e - min e f).toNat, ← scaled_shiftLeft n (f - min e f).toNat,
      hexponent, hexponent', scaled_lt_scaled_iff] at hlt
    rw [hx]
    exact if_pos hlt

/-- A number from zero up to a full circle is its own remainder. -/
lemma remainder_circle {x : Binary64} (hlow : ¬ x < 0) (hhigh : x < (360 : Nat)) :
    Analysis.remainder x ((360 : Nat) : Binary64) = x := by
  have hcircle : (Float.ofNat 360).toModel =
      .pack (.finite .positive 6333186975989760 (-44) (by decide)) := rfl
  have hunpack : ((360 : Nat) : Binary64).value.toModel.unpack =
      .finite .positive 6333186975989760 (-44) (by decide) := by
    show (Float.ofNat 360).toModel.unpack = _
    rw [hcircle, unpack_pack_finite _ ⟨by decide, by decide, .inr (by decide)⟩, if_pos (by decide)]
  have hremainder := truncatedRemainder_of_lt hunpack hlow hhigh
  have hdefined := isNaN_eq_false (unpack_ne_notANumber_of_lt hhigh).1
  refine Binary64.ext hremainder ((negated_of_defined ?_).trans (negated_of_defined hdefined).symm)
  exact (congrArg Float.isNaN hremainder).trans hdefined

/-- Binary64 numbers obey the laws of numbers. -/
theorem finiteLaws : FiniteLaws Binary64 where
  zero := inUnit_iff.2 ⟨0, value?_zero, le_rfl, zero_le_one⟩
  one := inUnit_iff.2 ⟨1, value?_one, zero_le_one, le_rfl⟩
  finite x h := by
    obtain ⟨a, ha, -⟩ := inUnit_iff.1 h
    exact isFinite_iff.2 ⟨a, ha⟩
  complement x h := inUnit_complement h
  below a x ha hlow hhigh := inUnit_of_below ha hlow hhigh
  above x b hb hlow hhigh := inUnit_of_above hb hlow hhigh
  told_apart a b h :=
    (unpack_ne_notANumber_of_lt h).imp comparable_iff.2 comparable_iff.2
  summands a b h := comparable_of_add h
  sum xs h := by
    obtain ⟨c, hc, -⟩ := exists_value?_foldl xs h
    exact isFinite_iff.2 ⟨c, hc⟩
  quotient a b ha hb := comparable_div ha hb
  remainder x hlow hhigh := remainder_circle hlow hhigh

/-! ### Distances -/

/-- What is packed of a zero or of a positive number is not below zero. -/
lemma not_pack_lt_zero {u : UnpackedFloat}
    (h : (∃ sign, u = .zero sign) ∨ ∃ m e hm, u = .finite .positive m e hm) :
    ¬ (Float.Model.pack u).unpack.lt (.zero .positive) = true := by
  obtain ⟨sign, rfl⟩ | ⟨m, e, hm, rfl⟩ := h
  · cases sign <;> exact Bool.false_ne_true
  · obtain heq | heq | ⟨n, f, hn, heq⟩ := unpack_pack_of_finite .positive m e hm <;>
    · rw [heq]
      exact Bool.false_ne_true

/-- A root is not below zero. -/
lemma not_sqrt_lt_zero (x : Float) : ¬ Float.sqrt x < 0 := by
  rw [lt_iff_unpack, unpack_zero]
  show ¬ (Float.Model.pack (.sqrt .binary64 x.toModel.unpack)).unpack.lt (.zero .positive) = true
  cases x.toModel.unpack with
  | notANumber => exact Bool.false_ne_true
  | infinity sign => cases sign <;> exact Bool.false_ne_true
  | zero sign => exact not_pack_lt_zero (.inl ⟨sign, rfl⟩)
  | finite sign m e hm =>
    cases sign with
    | negative =>
      show ¬ (Float.Model.pack .notANumber).unpack.lt _ = true
      exact Bool.false_ne_true
    | positive =>
      rw [UnpackedFloat.sqrt]
      generalize UnpackedFloat.sqrtCore .binary64 m e = core
      obtain ⟨k, t, accuracy⟩ := core
      exact not_pack_lt_zero
        ((roundWithAccuracy_cases .positive k t accuracy).imp_left fun h => ⟨_, h⟩)

/-- The product with an undefined number is undefined. -/
lemma unpack_mul_notANumber (x : Float) {y : Float} (h : y.toModel.unpack = .notANumber) :
    (x * y).toModel.unpack = .notANumber := by
  have hmul : UnpackedFloat.mul .binary64 x.toModel.unpack .notANumber = .notANumber := by
    cases x.toModel.unpack <;> rfl
  show (Float.Model.pack (.mul .binary64 x.toModel.unpack y.toModel.unpack)).unpack = _
  rw [h, hmul]
  rfl

/-- An angle from zero up to two radians spans a distance within bounds. -/
lemma not_lt_of_angle {x : Float} (hlow : ¬ x < 0) (hhigh : ¬ (2 : Float) < x) :
    ¬ Haversine.radius * (2 * x) < 0 ∧
      ¬ (farthest : Binary64).value < Haversine.radius * (2 * x) := by
  by_cases hx : x.toModel.unpack = .notANumber
  · have hundefined := unpack_mul_notANumber Haversine.radius (unpack_mul_notANumber 2 hx)
    exact ⟨fun h => (unpack_ne_notANumber_of_lt h).1 hundefined,
      fun h => (unpack_ne_notANumber_of_lt h).2 hundefined⟩
  · obtain ⟨a, ha, hpos, hle⟩ := exists_value?_of_not_lt value?_zero value?_two hx hlow hhigh
    obtain ⟨b, hb, hpos', hle'⟩ := exists_value?_mul value?_two ha zero_le_two hpos
      (n := 2 ^ 52) (f := -50) ⟨by decide, by decide, .inr le_rfl⟩ (by decide) (by norm_num [scaled]; linarith)
    obtain ⟨c, hc, hpos'', hle''⟩ := exists_value?_mul value?_radius hb (scaled_nonneg _ _) hpos'
      (n := 2 ^ 52) (f := -26) ⟨by decide, by decide, .inr le_rfl⟩ (by decide) (by
        norm_num [scaled] at hle' ⊢
        linarith)
    rw [lt_iff_of_value? hc value?_zero, lt_iff_of_value? value?_farthest hc, not_lt, not_lt]
    refine ⟨hpos'', ?_⟩
    norm_num [scaled] at hle''
    exact hle''

/-- The sphere has its distances within bounds, if the inverse sine is that of an angle of at most two
radians, and of no negative one if the sine is not negative. -/
theorem distanceLaws
    (hasin : ∀ x : Float, ¬ x < 0 → ¬ Float.asin x < 0 ∧ ¬ (2 : Float) < Float.asin x) :
    DistanceLaws Binary64 where
  nonneg a b := by
    obtain ⟨hlow, hhigh⟩ := hasin _ (not_sqrt_lt_zero _)
    exact (not_lt_of_angle hlow hhigh).1
  bounded a b := by
    obtain ⟨hlow, hhigh⟩ := hasin _ (not_sqrt_lt_zero _)
    exact (not_lt_of_angle hlow hhigh).2

end RoadMatching.Binary64
