import Pct.Refinement.Reserved
import Pct.Refinement.Rfc3986

/-!
# The built-in encoders write normal forms

A token that encoding keeps is a normal form, and so is an uppercase triplet unless its
octet is unreserved. The built-in encoders never encode an unreserved character, so
normalizing leaves their output as it is, and texts with one normal form are equal.
-/

namespace Pct

open Rust

variable {ε : Type}

/-! ## Tokens -/

/-- Encoding writes uppercase digits. -/
theorem normalize_tripletOf {b : UInt8} (h : isUnreserved b = false) :
    (tripletOf b).normalize = tripletOf b := by
  obtain ⟨hhi, hlo⟩ := hexTable_isUpper b
  have hoctet := octet_tripletOf b
  unfold tripletOf at hoctet ⊢
  simp only [Token.normalize, hoctet, h, HexDigit.upper_of_isUpper hhi,
    HexDigit.upper_of_isUpper hlo]
  rfl

theorem normalize_keptToken (b : UInt8) : (keptToken b).normalize = keptToken b := by
  unfold keptToken
  split
  · rename_i hb
    exact normalize_tripletOf (by rw [hb]; rfl)
  · rfl

/-! ## Encoders -/

/-- The encoder leaves the unreserved characters of RFC 3986 alone. -/
def Encoder.KeepsUnreserved (encoder : Encoder) : Prop :=
  ∀ b, isUnreserved b = true → encoder.encode (Char.ofNat b.toNat) = false

/-- A character that is written as triplets has no unreserved byte. -/
theorem Encoder.KeepsUnreserved.isUnreserved_eq_false {encoder : Encoder}
    (h : encoder.KeepsUnreserved) {c : Char} (hc : (encoder.encode c || c = '%') = true)
    {b : UInt8} (hb : b ∈ String.utf8EncodeChar c) : isUnreserved b = false := by
  rw [Bool.eq_false_iff]
  intro hu
  have hascii : c.toNat < 0x80 := by
    by_contra hge
    exact absurd (isUnreserved_lt hu) (UInt8.not_lt.mpr (Utf8.encodeChar_ge (Nat.not_lt.mp hge) hb))
  rw [Utf8.encodeChar_ascii hascii, List.mem_singleton] at hb
  have hcb : c = Char.ofNat b.toNat := by
    rw [hb, UInt8.toNat_ofNat', Nat.mod_eq_of_lt (by omega), Char.ofNat_toNat]
  have hne : c ≠ '%' := by
    rintro rfl
    exact isUnreserved_ne_percent hu hb
  rw [hcb, h b hu, Bool.false_or, decide_eq_true_iff, ← hcb] at hc
  exact hne hc

theorem Encoder.KeepsUnreserved.normalize_charTokens {encoder : Encoder}
    (h : encoder.KeepsUnreserved) (c : Char) :
    normalize (charTokens encoder c) = charTokens encoder c := by
  unfold charTokens normalize
  rw [List.map_map]
  apply List.map_congr_left
  intro b hb
  split
  · rename_i hc
    exact normalize_tripletOf (h.isUnreserved_eq_false hc hb)
  · exact normalize_keptToken b

theorem Encoder.KeepsUnreserved.normalize_encodeTokens {encoder : Encoder}
    (h : encoder.KeepsUnreserved) (src : List Char) :
    normalize (encodeTokens encoder src) = encodeTokens encoder src := by
  induction src with
  | nil => rfl
  | cons c src ih =>
    rw [encodeTokens_cons, normalize_append, h.normalize_charTokens, ih]

theorem UriReserved.keepsUnreserved (v : UriReserved) : v.encoder.KeepsUnreserved := by
  cases v <;> exact Utf8.byte_all (by decide)

theorem IriReserved.keepsUnreserved (v : IriReserved) : v.encoder.KeepsUnreserved := by
  obtain ⟨u, rfl⟩ := UriReserved.toIri_surjective v
  intro b hb
  have hagree := u.encode_toIri_ofNat b.toNat (UInt8.lt_iff_toNat_lt.mp (isUnreserved_lt hb))
  exact hagree.trans (u.keepsUnreserved b hb)

/-! ## Outputs -/

/-- The encoders that come with the crate. -/
def Encoder.builtIn : Set Encoder :=
  Set.range UriReserved.encoder ∪ Set.range IriReserved.encoder

theorem Encoder.keepsUnreserved_of_builtIn {encoder : Encoder} (h : encoder ∈ builtIn) :
    encoder.KeepsUnreserved := by
  obtain ⟨v, rfl⟩ | ⟨v, rfl⟩ := h
  · exact v.keepsUnreserved
  · exact v.keepsUnreserved

theorem Encoder.consistent_of_builtIn {encoder : Encoder} (h : encoder ∈ builtIn) :
    encoder.Consistent := by
  obtain ⟨v, rfl⟩ | ⟨v, rfl⟩ := h
  · exact v.consistent
  · exact v.consistent

/-- What a built-in encoder writes, by characters or by bytes, is its own normal form, and
`eq_rfc3986` tells the outputs of different texts apart. -/
theorem encode_normal (B : Build ε) {encoder : Encoder} (h : encoder ∈ Encoder.builtIn)
    (s t : String) :
    ∃ x y : PctString, PctString.encode s.toList encoder = x ∧
      PctString.encodeBytes B s encoder = .ok x ∧ PctString.encode t.toList encoder = y ∧
      PctString.encodeBytes B t encoder = .ok y ∧ x.asPctStr.bytesRfc3986 = .ok x.raw ∧
      x.asPctStr.eqRfc3986 y.asPctStr = .ok (decide (s = t)) := by
  have hkeeps := Encoder.keepsUnreserved_of_builtIn h
  have hconsistent := Encoder.consistent_of_builtIn h
  refine ⟨_, _, rfl, hconsistent.encodeBytes_eq B s, rfl, hconsistent.encodeBytes_eq B t, ?_, ?_⟩
  · rw [PctString.encode_eq, PctString.asPctStr, PctStr.bytesRfc3986_spell,
      hkeeps.normalize_encodeTokens]
  · have htokens : encodeTokens encoder s.toList = encodeTokens encoder t.toList ↔ s = t := by
      constructor
      · intro heq
        have hoctets := congrArg octets heq
        rwa [octets_encodeTokens, octets_encodeTokens, Utf8.encode_toList_inj] at hoctets
      · rintro rfl
        rfl
    rw [PctString.encode_eq, PctString.encode_eq, PctString.asPctStr, PctString.asPctStr,
      PctStr.eqRfc3986_spell, hkeeps.normalize_encodeTokens, hkeeps.normalize_encodeTokens]
    simp only [htokens]

theorem encode_normal_path :
    ∃ x y : PctString, PctString.encode "a é".toList UriReserved.path.encoder = x ∧
      PctString.encodeBytes (referenceBuild true true) "a é" UriReserved.path.encoder = .ok x ∧
      PctString.encode "a%20é".toList UriReserved.path.encoder = y ∧
      x.asPctStr.bytesRfc3986 = .ok x.raw ∧ x.asPctStr.eqRfc3986 y.asPctStr = .ok false := by
  obtain ⟨x, y, hx, hbytes, hy, -, hnormal, heq⟩ :=
    encode_normal (referenceBuild true true) (.inl ⟨.path, rfl⟩) "a é" "a%20é"
  rw [decide_eq_false (by decide)] at heq
  exact ⟨x, y, hx, hbytes, hy, hnormal, heq⟩

end Pct
