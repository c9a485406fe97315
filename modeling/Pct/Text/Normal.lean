import Pct.Text.Token

/-!
# The normal form of RFC 3986

Section 6.2.2 identifies two spellings of an octet: hex digits of either case, and a
triplet with the unreserved character it stands for. `Token.Equiv` is this relation
on tokens and `Token.normalize` picks one token of each class, so two texts are
equivalent exactly when their normal forms agree (`normalize_eq_iff`). Normalizing
changes neither the octets nor whether the raw bytes are well-formed UTF-8.
-/

namespace Pct

open Utf8

/-! ## Unreserved characters -/

def isAlpha (b : UInt8) : Bool := (0x41 ≤ b ∧ b ≤ 0x5A) || (0x61 ≤ b ∧ b ≤ 0x7A)

def isDigit (b : UInt8) : Bool := 0x30 ≤ b ∧ b ≤ 0x39

/-- A letter, a digit or one of `-._~`. -/
def isUnreserved (b : UInt8) : Bool := isAlpha b || isDigit b || b ∈ [0x2D, 0x2E, 0x5F, 0x7E]

theorem isUnreserved_ne_percent {b : UInt8} (h : isUnreserved b = true) : b ≠ percent := by
  rintro rfl
  cases h

theorem isUnreserved_lt {b : UInt8} (h : isUnreserved b = true) : b < 0x80 := by
  unfold isUnreserved isAlpha isDigit at h
  grind

/-! ## Uppercase digits -/

/-- The uppercase digit of a value. -/
def upperByte (v : UInt8) : UInt8 := if v < 10 then 0x30 + v else 0x41 + (v - 10)

theorem isHexDigit_upperByte {v : UInt8} (h : v < 16) : isHexDigit (upperByte v) = true := by
  unfold isHexDigit upperByte
  grind

def HexDigit.upper (d : HexDigit) : HexDigit :=
  ⟨upperByte d.value, isHexDigit_upperByte d.value_lt⟩

@[simp] theorem HexDigit.value_upper (d : HexDigit) : d.upper.value = d.value := by
  have h := d.value_lt
  show (if upperByte d.value ≤ 0x39 then upperByte d.value - 0x30
    else if upperByte d.value ≤ 0x46 then upperByte d.value - 0x41 + 10
    else upperByte d.value - 0x61 + 10) = d.value
  unfold upperByte
  grind

def HexDigit.isUpper (d : HexDigit) : Bool := d.byte ≤ 0x46

theorem HexDigit.upper_of_isUpper {d : HexDigit} (h : d.isUpper = true) : d.upper = d := by
  obtain ⟨b, hb⟩ := d
  unfold isHexDigit at hb
  unfold isUpper at h
  simp only [upper, upperByte, value]
  grind

theorem HexDigit.upper_eq_iff {d e : HexDigit} : d.upper = e.upper ↔ d.value = e.value := by
  constructor
  · intro h
    rw [← value_upper d, h, value_upper]
  · intro h
    simp only [upper, h]

/-! ## Tokens -/

namespace Token

/-- Two spellings of one octet that RFC 3986 identifies. -/
inductive Equiv : Token → Token → Prop where
  | literal (b : Literal) : Equiv (literal b) (literal b)
  | triplet {hi lo hi' lo' : HexDigit}
      (h : (Token.triplet hi lo).octet = (Token.triplet hi' lo').octet) :
      Equiv (triplet hi lo) (triplet hi' lo')
  | encoded {b : Literal} {hi lo : HexDigit} (hb : isUnreserved b.byte = true)
      (h : (Token.triplet hi lo).octet = b.byte) : Equiv (literal b) (triplet hi lo)
  | decoded {b : Literal} {hi lo : HexDigit} (hb : isUnreserved b.byte = true)
      (h : (Token.triplet hi lo).octet = b.byte) : Equiv (triplet hi lo) (literal b)

def normalize : Token → Token
  | literal b => literal b
  | triplet hi lo =>
    if h : isUnreserved (Token.triplet hi lo).octet = true then
      literal ⟨(Token.triplet hi lo).octet, isUnreserved_ne_percent h⟩
    else triplet hi.upper lo.upper

/-- Both spellings of an unreserved octet have the literal as their normal form. -/
theorem normalize_triplet_unreserved {b : Literal} {hi lo : HexDigit}
    (hb : isUnreserved b.byte = true) (h : (triplet hi lo).octet = b.byte) :
    (triplet hi lo).normalize = literal b := by
  simp only [normalize, h, hb, dite_true]

@[simp] theorem octet_normalize (t : Token) : t.normalize.octet = t.octet := by
  cases t with
  | literal b => rfl
  | triplet hi lo =>
    rw [normalize]
    split
    · rfl
    · simp [octet_triplet_eq_iff]

@[simp] theorem normalize_normalize (t : Token) : t.normalize.normalize = t.normalize := by
  cases t with
  | literal b => rfl
  | triplet hi lo =>
    by_cases h : isUnreserved (triplet hi lo).octet = true
    · simp [normalize, h]
    · have hupper : (triplet hi.upper lo.upper).octet = (triplet hi lo).octet := by
        simp [octet_triplet_eq_iff]
      simp [normalize, h, hupper, HexDigit.upper_eq_iff]

theorem Equiv.normalize_eq {t u : Token} (h : t.Equiv u) : t.normalize = u.normalize := by
  cases h with
  | literal b => rfl
  | triplet h =>
    have hdigits := octet_triplet_eq_iff.mp h
    simp only [normalize, h, HexDigit.upper_eq_iff.mpr hdigits.1,
      HexDigit.upper_eq_iff.mpr hdigits.2]
  | encoded hb h => rw [normalize_triplet_unreserved hb h, normalize]
  | decoded hb h => rw [normalize_triplet_unreserved hb h, normalize]

/-- Tokens are equivalent exactly when their normal forms agree. -/
theorem normalize_eq_iff {t u : Token} : t.normalize = u.normalize ↔ t.Equiv u := by
  refine ⟨fun h => ?_, Equiv.normalize_eq⟩
  have hoctet : t.octet = u.octet := by rw [← octet_normalize t, h, octet_normalize]
  cases t with
  | literal b =>
    cases u with
    | literal c =>
      obtain rfl : b = c := by simpa [normalize] using h
      exact .literal b
    | triplet hi lo =>
      refine .encoded ?_ hoctet.symm
      rw [← octet_literal, hoctet]
      by_contra hu
      simp [normalize, hu] at h
  | triplet hi lo =>
    cases u with
    | literal b =>
      refine .decoded ?_ hoctet
      rw [← octet_literal, ← hoctet]
      by_contra hu
      simp [normalize, hu] at h
    | triplet hi' lo' => exact .triplet hoctet

/-- Normalizing a triplet leaves an ASCII spelling. -/
theorem spelling_normalize_lt (hi lo : HexDigit) :
    ∀ b ∈ (triplet hi lo).normalize.spelling, b < 0x80 := by
  by_cases h : isUnreserved (triplet hi lo).octet = true
  · simpa [normalize, h] using isUnreserved_lt h
  · simp only [normalize, h]
    exact spelling_lt rfl

end Token

/-! ## Texts -/

def normalize (ts : List Token) : List Token := ts.map Token.normalize

@[simp] theorem normalize_cons (t : Token) (ts : List Token) :
    normalize (t :: ts) = t.normalize :: normalize ts := rfl

@[simp] theorem normalize_append (ts us : List Token) :
    normalize (ts ++ us) = normalize ts ++ normalize us := List.map_append

@[simp] theorem octets_normalize (ts : List Token) : octets (normalize ts) = octets ts := by
  simp [octets, normalize, Function.comp_def]

@[simp] theorem normalize_normalize (ts : List Token) :
    normalize (normalize ts) = normalize ts := by
  simp [normalize, Function.comp_def]

theorem normalize_eq_iff {ts us : List Token} :
    normalize ts = normalize us ↔ List.Forall₂ Token.Equiv ts us := by
  simp only [normalize, ← List.forall₂_eq_eq_eq, List.forall₂_map_left_iff,
    List.forall₂_map_right_iff, Token.normalize_eq_iff]

/-- A triplet and its normal form are ASCII both, so they separate the same pieces. The
induction collects the literal bytes `a` since the last triplet. -/
theorem wellFormed_append_normalize (a : List UInt8) (ts : List Token) :
    WellFormed (a ++ spell (normalize ts)) ↔ WellFormed (a ++ spell ts) := by
  induction ts generalizing a with
  | nil => rfl
  | cons t ts ih =>
    rw [normalize_cons, spell_cons, spell_cons, ← List.append_assoc, ← List.append_assoc]
    cases t with
    | literal b => exact ih (a ++ [b.byte])
    | triplet hi lo =>
      rw [wellFormed_append_asciis (Token.spelling_ne_nil _) (Token.spelling_normalize_lt hi lo),
        wellFormed_append_asciis (Token.spelling_ne_nil _) (Token.spelling_lt rfl)]
      exact and_congr_right fun _ => ih []

theorem wellFormed_spell_normalize (ts : List Token) :
    WellFormed (spell (normalize ts)) ↔ WellFormed (spell ts) :=
  wellFormed_append_normalize [] ts

end Pct
