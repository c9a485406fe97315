import Pct.Refinement.Decoding

/-!
# Encoding characters

`encode` writes a character either as the triplets of its bytes or as these bytes
themselves, so its output is the spelling of tokens whose octets are the bytes of the
source (`octets_encodeTokens`). Everything else about the output follows: it is
accepted, it decodes to the source, and it is UTF-8 since no character is split.
-/

namespace Pct

open Rust

variable {ε : Type} {B : Build ε}

/-- The token of a byte that is kept. -/
def keptToken (b : UInt8) : Token :=
  if h : b = percent then tripletOf b else .literal ⟨b, h⟩

@[simp] theorem octet_keptToken (b : UInt8) : (keptToken b).octet = b := by
  unfold keptToken
  split
  · exact octet_tripletOf b
  · rfl

theorem spelling_keptToken {b : UInt8} (h : b ≠ percent) : (keptToken b).spelling = [b] := by
  simp [keptToken, h]

/-- Bytes other than `%` are kept as they are. -/
theorem spell_map_keptToken {bs : List UInt8} (h : percent ∉ bs) :
    spell (bs.map keptToken) = bs := by
  induction bs with
  | nil => rfl
  | cons b bs ih =>
    rw [List.mem_cons, not_or] at h
    rw [List.map_cons, spell_cons, spelling_keptToken (Ne.symm h.1), ih h.2, List.singleton_append]

@[simp] theorem octets_map_keptToken (bs : List UInt8) : octets (bs.map keptToken) = bs := by
  simp [octets, Function.comp_def]

/-! ## Characters -/

theorem percent_notMem_encodeChar {c : Char} (h : c ≠ '%') : percent ∉ String.utf8EncodeChar c := by
  intro hmem
  by_cases hc : c.toNat < 0x80
  · rw [Utf8.encodeChar_ascii hc, List.mem_singleton] at hmem
    have hnat : c.toNat = 0x25 := by
      have := congrArg UInt8.toNat hmem
      rw [UInt8.toNat_ofNat'] at this
      have : percent.toNat = 0x25 := rfl
      omega
    exact h (Char.toNat_inj.mp hnat)
  · exact absurd (Utf8.encodeChar_ge (Nat.not_lt.mp hc) hmem) (by decide)

/-- The tokens that `encode` writes for a character. -/
def charTokens (encoder : Encoder) (c : Char) : List Token :=
  (String.utf8EncodeChar c).map (if encoder.encode c || c = '%' then tripletOf else keptToken)

@[simp] theorem octets_charTokens (encoder : Encoder) (c : Char) :
    octets (charTokens encoder c) = String.utf8EncodeChar c := by
  unfold charTokens
  split <;> simp

theorem pushChar_eq (encoder : Encoder) (out : List UInt8) (c : Char) :
    pushChar encoder out c = out ++ spell (charTokens encoder c) := by
  unfold pushChar charTokens
  split
  · exact foldl_pushTriplet out _
  · have hc : c ≠ '%' := by simp_all
    rw [spell_map_keptToken (percent_notMem_encodeChar hc)]
    split
    · rw [Utf8.encodeChar_ascii ‹_›]
    · rfl

/-- A character is written without a change of spelling, so its raw bytes are text. -/
theorem wellFormed_spell_charTokens (encoder : Encoder) (c : Char) :
    Utf8.WellFormed (spell (charTokens encoder c)) := by
  unfold charTokens
  split
  · exact Utf8.wellFormed_of_ascii (spell_lt (List.forall_mem_map.mpr fun _ _ => rfl))
  · have hc : c ≠ '%' := by simp_all
    rw [spell_map_keptToken (percent_notMem_encodeChar hc)]
    exact Utf8.wellFormed_encodeChar c

/-- An ASCII character is written in ASCII. -/
theorem spell_charTokens_lt {encoder : Encoder} {c : Char} (hc : c.toNat < 0x80) :
    ∀ b ∈ spell (charTokens encoder c), b < 0x80 := by
  unfold charTokens
  split
  · exact spell_lt (List.forall_mem_map.mpr fun _ _ => rfl)
  · have hne : c ≠ '%' := by simp_all
    rw [spell_map_keptToken (percent_notMem_encodeChar hne)]
    exact fun b => Utf8.encodeChar_lt hc

/-! ## Texts -/

/-- The tokens that `encode` writes for a text. -/
def encodeTokens (encoder : Encoder) (src : List Char) : List Token :=
  src.flatMap (charTokens encoder)

@[simp] theorem encodeTokens_cons (encoder : Encoder) (c : Char) (src : List Char) :
    encodeTokens encoder (c :: src) = charTokens encoder c ++ encodeTokens encoder src := rfl

@[simp] theorem octets_encodeTokens (encoder : Encoder) (src : List Char) :
    octets (encodeTokens encoder src) = Utf8.encode src := by
  induction src with
  | nil => rfl
  | cons c src ih => simp [ih]

theorem foldl_pushChar (encoder : Encoder) (out : List UInt8) (src : List Char) :
    src.foldl (pushChar encoder) out = out ++ spell (encodeTokens encoder src) := by
  induction src generalizing out with
  | nil => simp [encodeTokens]
  | cons c src ih => rw [List.foldl_cons, ih, pushChar_eq]; simp

theorem PctString.encode_eq (encoder : Encoder) (src : List Char) :
    PctString.encode src encoder = ⟨spell (encodeTokens encoder src)⟩ := by
  rw [PctString.encode, foldl_pushChar, List.nil_append]

theorem wellFormed_spell_encodeTokens (encoder : Encoder) (src : List Char) :
    Utf8.WellFormed (spell (encodeTokens encoder src)) := by
  induction src with
  | nil => exact Utf8.wellFormed_nil
  | cons c src ih =>
    rw [encodeTokens_cons, spell_append]
    exact (wellFormed_spell_charTokens encoder c).append ih

/-- The output is valid and decodes to the source. -/
theorem Build.Lawful.encode_spec (hB : B.Lawful) (encoder : Encoder) (src : List Char) :
    (PctString.encode src encoder).asPctStr.Valid B ∧
      (PctString.encode src encoder).asPctStr.decode B = .ok (String.ofList src) ∧
      (PctString.encode src encoder).asPctStr.chars B = .ok src := by
  have hoctets := (octets_encodeTokens encoder src).symm
  rw [PctString.encode_eq, PctString.asPctStr]
  refine ⟨?_, hB.decode_spell hoctets, hB.chars_spell hoctets⟩
  exact hB.valid_iff.mpr ((accepted_spell _).mpr ⟨src, hoctets⟩)

/-- Encoding gives a valid value that decodes to its source, whatever the encoder, and
encoding the characters of a valid value gives an equal one. -/
theorem encode_roundtrip (hB : B.Lawful) (encoder : Encoder) :
    (∀ src : List Char,
      Utf8.WellFormed (PctString.encode src encoder).raw ∧
        (PctString.encode src encoder).asPctStr.Valid B ∧
        (PctString.encode src encoder).asPctStr.decode B = .ok (String.ofList src) ∧
        (PctString.encode src encoder).asPctStr.chars B = .ok src) ∧
      ∀ p : PctStr, p.Valid B → ∃ cs, p.chars B = .ok cs ∧
        (PctString.encode cs encoder).asPctStr.eq p = .ok true := by
  constructor
  · intro src
    refine ⟨?_, hB.encode_spec encoder src⟩
    rw [PctString.encode_eq]
    exact wellFormed_spell_encodeTokens encoder src
  · intro p hp
    obtain ⟨ts, rfl, cs, hcs⟩ := hp.exists_tokens hB
    refine ⟨cs, hB.chars_spell hcs, ?_⟩
    rw [PctString.encode_eq, PctString.asPctStr, PctStr.eq_spell, octets_encodeTokens, hcs,
      decide_eq_true rfl]

theorem encode_roundtrip_percent :
    PctStr.Valid (referenceBuild true false)
      (PctString.encode ['%', 'a'] (Encoder.ofFn fun _ => false)).asPctStr :=
  ((encode_roundtrip (referenceBuild_lawful true false) (.ofFn fun _ => false)).1 ['%', 'a']).2.1

end Pct
