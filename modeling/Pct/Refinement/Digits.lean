import Pct.Text.Normal
import Pct.Source.Nsized
import Pct.Source.Sized

/-!
# Hex digits of the source and of the tokens

The table `HEX_VAL` holds the value of every hex digit and `0xFF` elsewhere, so the
test `a | c == 0xFF` recognises a malformed triplet and `(a << 4) | c` is the octet of
a well-formed one. The table `HEX` writes the triplet of a byte, in uppercase digits.
-/

namespace Pct

open Rust

theorem hexVal_byte (d : HexDigit) : hexVal d.byte = d.value := by
  have h := d.isHex
  unfold isHexDigit at h
  rw [hexVal_eq]
  unfold hexValEntry HexDigit.value
  grind

theorem hexVal_eq_ff {b : UInt8} : hexVal b = 0xFF ↔ isHexDigit b = false := by
  rw [hexVal_eq]
  unfold hexValEntry isHexDigit
  grind

theorem or_ff (x : UInt8) : 0xFF ||| x = 0xFF := by
  revert x
  exact Utf8.byte_all (by decide)

/-- The arithmetic of two nibbles. -/
theorem nibbles {x y : UInt8} (hx : x < 16) (hy : y < 16) :
    x <<< 4 ||| y = 16 * x + y ∧ x ||| y ≠ 0xFF := by
  have all : ∀ n < 16, ∀ m < 16, UInt8.ofNat n <<< 4 ||| UInt8.ofNat m =
      16 * UInt8.ofNat n + UInt8.ofNat m ∧ UInt8.ofNat n ||| UInt8.ofNat m ≠ 0xFF := by
    decide
  simpa using all x.toNat (UInt8.lt_iff_toNat_lt.mp hx) y.toNat (UInt8.lt_iff_toNat_lt.mp hy)

/-- The malformed-triplet test of the validators. -/
theorem hexVal_or_eq_ff {h1 h2 : UInt8} :
    hexVal h1 ||| hexVal h2 = 0xFF ↔ ¬ (isHexDigit h1 = true ∧ isHexDigit h2 = true) := by
  by_cases h₁ : isHexDigit h1 = true
  · by_cases h₂ : isHexDigit h2 = true
    · have := (nibbles (HexDigit.value_lt ⟨h1, h₁⟩) (HexDigit.value_lt ⟨h2, h₂⟩)).2
      rw [← hexVal_byte, ← hexVal_byte] at this
      simp [h₁, h₂, this]
    · rw [hexVal_eq_ff.mpr (Bool.eq_false_iff.mpr h₂), UInt8.or_comm]
      simp [or_ff, h₂]
  · rw [hexVal_eq_ff.mpr (Bool.eq_false_iff.mpr h₁)]
    simp [or_ff, h₁]

theorem hexVal_octet (hi lo : HexDigit) :
    hexVal hi.byte <<< 4 ||| hexVal lo.byte = (Token.triplet hi lo).octet := by
  rw [hexVal_byte, hexVal_byte, (nibbles hi.value_lt lo.value_lt).1]
  rfl

/-- On a well-formed triplet the assertion holds and the octet comes out. -/
@[simp] theorem decodeTriplet_byte (hi lo : HexDigit) :
    decodeTriplet hi.byte lo.byte = .ok (Token.triplet hi lo).octet := by
  have ne (d : HexDigit) : (hexVal d.byte != 0xFF) = true := by
    simp [hexVal_eq_ff, d.isHex]
  simp only [decodeTriplet, ne, Bool.and_self, debugAssert_true, Exec.ok_bind, hexVal_octet,
    Exec.pure_eq]

/-! ## The triplet of a byte -/

theorem hexTable_digits (b : UInt8) :
    isHexDigit (hexHi b) = true ∧ isHexDigit (hexLo b) = true := by
  revert b
  exact Utf8.byte_all (by decide)

/-- The table `HEX` has uppercase digits. -/
theorem hexTable_isUpper (b : UInt8) :
    HexDigit.isUpper ⟨hexHi b, (hexTable_digits b).1⟩ = true ∧
      HexDigit.isUpper ⟨hexLo b, (hexTable_digits b).2⟩ = true := by
  revert b
  exact Utf8.byte_all (by decide)

/-- The token that encoding writes for a byte. -/
def tripletOf (b : UInt8) : Token :=
  .triplet ⟨hexHi b, (hexTable_digits b).1⟩ ⟨hexLo b, (hexTable_digits b).2⟩

@[simp] theorem octet_tripletOf (b : UInt8) : (tripletOf b).octet = b := by
  revert b
  exact Utf8.byte_all (by decide)

theorem pushTriplet_eq (out : List UInt8) (b : UInt8) :
    pushTriplet out b = out ++ (tripletOf b).spelling := rfl

theorem foldl_pushTriplet (out bs : List UInt8) :
    bs.foldl pushTriplet out = out ++ spell (bs.map tripletOf) := by
  induction bs generalizing out with
  | nil => simp
  | cons b bs ih =>
    rw [List.foldl_cons, ih, pushTriplet_eq, List.map_cons, spell_cons, List.append_assoc]

@[simp] theorem octets_map_tripletOf (bs : List UInt8) : octets (bs.map tripletOf) = bs := by
  simp [octets, Function.comp_def]

end Pct
