import Mathlib
import RoadMatching.Number.Binary64

/-!
The binary64 numbers that are not finite.

The bits of an infinity are determined by its sign, and an undefined value has one form, but for the
sign that is kept beside it.

* `packComponents_unpack`: the bits of a number are its sign, its exponent and its mantissa.
* `eq_pack_of_unpack_infinity`, `eq_pack_of_unpack_notANumber`: what is unpacked as a special value
  is the packed one.
* `eq_infinite_of_kind`, `eq_undefined_of_kind`: so the special values are told by their kind.
-/

namespace RoadMatching.Binary64

open Float.Model (Format UnpackedFloat)

/-- The bits of a number are its sign, its exponent and its mantissa. -/
lemma packComponents_unpack (b : BitVec Format.binary64.numBits) :
    UnpackedFloat.packComponents .binary64 (.ofBitVec (UnpackedFloat.unpackSign b))
      (UnpackedFloat.unpackExponent b) (UnpackedFloat.unpackMantissa b) = b := by
  have hsign : ∀ v : BitVec 1, (UnpackedFloat.Sign.ofBitVec v).toBitVec = v := by decide
  rw [UnpackedFloat.packComponents, hsign]
  refine BitVec.eq_of_getLsbD_eq fun i hi => ?_
  have hlt : i < 64 := hi
  simp only [BitVec.getLsbD_append, UnpackedFloat.unpackSign, UnpackedFloat.unpackExponent,
    UnpackedFloat.unpackMantissa, BitVec.getLsbD_cast, BitVec.getLsbD_extractLsb]
  split
  · next hmantissa =>
    rw [decide_eq_true (show i < 52 - 1 - 0 + 1 by omega), Bool.true_and, Nat.zero_add]
  · next hmantissa =>
    split
    · next hexponent =>
      rw [decide_eq_true (show i - 52 < 52 + 11 - 1 - 52 + 1 by omega), Bool.true_and,
        show 52 + (i - 52) = i by omega]
    · next hexponent =>
      rw [decide_eq_true (show i - 52 - 11 < 52 + 11 - (52 + 11) + 1 by omega), Bool.true_and,
        show 52 + 11 + (i - 52 - 11) = i by omega]

/-- What is unpacked as an infinity is the packed one of its sign. -/
lemma eq_pack_of_unpack_infinity {f : Float.Model} {sign : UnpackedFloat.Sign}
    (h : f.unpack = .infinity sign) : f = .pack (.infinity sign) := by
  obtain ⟨bits, valid⟩ := f
  have hbits := packComponents_unpack bits.toBitVec
  simp only [Float.Model.unpack, UnpackedFloat.unpack] at h
  split at h
  · next hexponent =>
    split at h
    · next hmantissa =>
      rw [UnpackedFloat.infinity.injEq] at h
      rw [hexponent, hmantissa, h] at hbits
      simp only [Float.Model.pack, UnpackedFloat.pack, UnpackedFloat.packedInfinity]
      congr 1
      exact congrArg UInt64.ofBitVec hbits.symm
    · cases h
  · split at h
    · split at h <;> cases h
    · cases h

/-- What is unpacked as undefined is the packed form of that. -/
lemma eq_pack_of_unpack_notANumber {f : Float.Model} (h : f.unpack = .notANumber) :
    f = .pack .notANumber := by
  obtain ⟨bits, valid⟩ := f
  simp only [Float.Model.unpack, UnpackedFloat.unpack] at h
  split at h
  · next hexponent =>
    split at h
    · cases h
    · next hmantissa =>
      simp only [Float.Model.pack, UnpackedFloat.pack, ← valid.eq_packedNaN hexponent hmantissa]
  · split at h
    · split at h <;> cases h
    · cases h

/-- An infinite number is the infinity of its sign. -/
lemma eq_infinite_of_kind {f : Float} {negative : Bool} (h : kind f = .infinite negative) :
    ofFloat f = Extended.infinite negative := by
  have hpositive : (1 / 0 : Float).toModel = .pack (.infinity .positive) := rfl
  have hnegative : (-1 / 0 : Float).toModel = .pack (.infinity .negative) := rfl
  obtain ⟨model⟩ := f
  rw [kind] at h
  split at h
  · cases h
  · next sign hsign =>
    rw [NumberKind.infinite.injEq] at h
    obtain rfl := eq_pack_of_unpack_infinity hsign
    subst h
    cases sign with
    | positive => exact congrArg (fun m => ofFloat (.ofModel m)) hpositive.symm
    | negative => exact congrArg (fun m => ofFloat (.ofModel m)) hnegative.symm
  · cases h
  · cases h

/-- An undefined number without a sign is the undefined value. -/
lemma eq_undefined_of_kind {f : Float} (h : kind f = .undefined) :
    ofFloat f = Extended.undefined := by
  have hundefined : (0 / 0 : Float).toModel = .pack .notANumber := rfl
  obtain ⟨model⟩ := f
  rw [kind] at h
  split at h
  · next hmodel =>
    obtain rfl := eq_pack_of_unpack_notANumber hmodel
    exact congrArg (fun m => ofFloat (.ofModel m)) hundefined.symm
  · cases h
  · cases h
  · cases h

end RoadMatching.Binary64
