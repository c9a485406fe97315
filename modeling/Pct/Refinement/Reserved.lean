import Pct.Refinement.EncodingBytes
import Pct.Text.Normal

/-!
# The built-in encoders

The keep tables of `UriReserved` and `IriReserved` say what their predicates say of
ASCII characters, so both families are consistent. Beyond ASCII a URI encoder encodes
everything, and on ASCII the two families agree, hence mapping an IRI encoding to
ASCII gives the URI encoding.
-/

namespace Pct

open Rust

variable {ε : Type}

/-! ## Tables and predicates -/

theorem UriReserved.consistent (v : UriReserved) : v.encoder.Consistent := by
  rintro _ ⟨⟩
  refine ⟨?_, .inr rfl⟩
  cases v <;> simp only [encoder, keepTable, buildKeepTable, Vector.getElem_ofFn] <;> decide

/-- The variant of the same name. -/
def UriReserved.toIri : UriReserved → IriReserved
  | any => .any
  | path => .path
  | query => .query
  | fragment => .fragment

theorem UriReserved.toIri_surjective : Function.Surjective toIri := by
  intro v
  cases v
  exacts [⟨any, rfl⟩, ⟨path, rfl⟩, ⟨query, rfl⟩, ⟨fragment, rfl⟩]

theorem UriReserved.keepTable_toIri (v : UriReserved) : v.toIri.keepTable = v.keepTable := by
  cases v <;> rfl

/-- On ASCII characters the predicates agree. -/
theorem UriReserved.encode_toIri_ofNat (v : UriReserved) :
    ∀ n < 128, v.toIri.encode (Char.ofNat n) = v.encode (Char.ofNat n) := by
  cases v <;> decide

theorem UriReserved.encode_toIri (v : UriReserved) {c : Char} (h : c.toNat < 0x80) :
    v.toIri.encode c = v.encode c := by
  simpa using v.encode_toIri_ofNat c.toNat h

theorem IriReserved.consistent (v : IriReserved) : v.encoder.Consistent := by
  obtain ⟨u, rfl⟩ := UriReserved.toIri_surjective v
  rintro _ ⟨⟩
  refine ⟨fun n hn => ?_, .inr rfl⟩
  have hkeep := (u.consistent _ rfl).1 n hn
  simpa only [encoder, UriReserved.encoder, u.keepTable_toIri, u.encode_toIri_ofNat n hn]
    using hkeep

/-- The byte encoder agrees with the character encoder for every consistent encoder,
the built-in ones among them, and what it cuts out of the source are characters. -/
theorem encodeBytes_eq_encode (B : Build ε) :
    (∀ v : UriReserved, v.encoder.Consistent) ∧ (∀ v : IriReserved, v.encoder.Consistent) ∧
      ∀ (encoder : Encoder) (src : String), encoder.Consistent →
        PctString.encodeBytes B src encoder = .ok (PctString.encode src.toList encoder) ∧
        ∀ table i out j b, encoder.asciiKeepTable = some table →
          (encodeBytesLoop B encoder table encoder.asciiKeepLoShuf
            (Utf8.encode src.toList)).Reaches (0, []) (i, out) →
          scanKeepRun B (Utf8.encode src.toList) i table encoder.asciiKeepLoShuf = .ok j →
          (Utf8.encode src.toList)[j]? = some b → b ≥ 0x80 →
          ∃ pre c post stop, src.toList = pre ++ c :: post ∧ j = (Utf8.encode pre).length ∧
            (seqEnd (Utf8.encode src.toList)).run (j + 1) = .ok stop ∧
            slice (Utf8.encode src.toList) j stop = .ok (String.utf8EncodeChar c) :=
  ⟨UriReserved.consistent, IriReserved.consistent, fun _ src h =>
    ⟨h.encodeBytes_eq B src, fun _ _ _ _ _ _ hreach hscan hb _ => slice_of_reaches hreach hscan hb⟩⟩

theorem encodeBytes_eq_encode_path :
    PctString.encodeBytes (referenceBuild true true) "é/%" UriReserved.path.encoder =
      .ok (PctString.encode "é/%".toList UriReserved.path.encoder) :=
  ((encodeBytes_eq_encode (referenceBuild true true)).2.2 _ "é/%" (UriReserved.consistent .path)).1

/-! ## From IRIs to URIs -/

/-- Letters and digits by their code points. -/
theorem isAlphanum_iff {c : Char} :
    c.isAlphanum = true ↔ (0x41 ≤ c.toNat ∧ c.toNat ≤ 0x5A ∨ 0x61 ≤ c.toNat ∧ c.toNat ≤ 0x7A) ∨
      0x30 ≤ c.toNat ∧ c.toNat ≤ 0x39 := by
  have hupper : c.isUpper = true ↔ 0x41 ≤ c.toNat ∧ c.toNat ≤ 0x5A :=
    decide_eq_true_iff (p := c.val ≥ 65 ∧ c.val ≤ 90)
  have hlower : c.isLower = true ↔ 0x61 ≤ c.toNat ∧ c.toNat ≤ 0x7A :=
    Bool.and_eq_true_iff.trans (and_congr decide_eq_true_iff decide_eq_true_iff)
  have hdigit : c.isDigit = true ↔ 0x30 ≤ c.toNat ∧ c.toNat ≤ 0x39 :=
    Bool.and_eq_true_iff.trans (and_congr decide_eq_true_iff decide_eq_true_iff)
  rw [← hupper, ← hlower, ← hdigit]
  exact Bool.or_eq_true_iff.trans (or_congr_left Bool.or_eq_true_iff)

/-- A URI encoder encodes every character beyond ASCII. -/
theorem UriReserved.encode_nonAscii (v : UriReserved) {c : Char} (h : 0x80 ≤ c.toNat) :
    v.encode c = true := by
  have hne {d : Char} (hd : d.toNat < 0x80) : c ≠ d := by
    rintro rfl
    omega
  have halnum : c.isAlphanum = false := by
    rw [Bool.eq_false_iff]
    intro hc
    have := isAlphanum_iff.mp hc
    omega
  have hsub : isSubDelim c = false := by
    rw [isSubDelim, decide_eq_false_iff_not]
    intro hmem
    simp only [List.mem_cons, List.not_mem_nil, or_false] at hmem
    omega
  cases v <;> simp [encode, isUnreserved, isReservedButSafe, halnum, hsub, hne]

/-- The mapping of IRIs to URIs: the bytes beyond ASCII become uppercase triplets. -/
def iriToUri (bs : List UInt8) : List UInt8 :=
  bs.flatMap fun b => if b < 0x80 then [b] else [percent, upperByte (b / 16), upperByte (b % 16)]

theorem spelling_tripletOf (b : UInt8) :
    (tripletOf b).spelling = [percent, upperByte (b / 16), upperByte (b % 16)] := by
  obtain ⟨hhi, hlo⟩ := hexTable_isUpper b
  obtain ⟨hdiv, hmod⟩ := Token.octet_digits ⟨hexHi b, (hexTable_digits b).1⟩
    ⟨hexLo b, (hexTable_digits b).2⟩
  have hoctet := octet_tripletOf b
  unfold tripletOf at hoctet ⊢
  rw [hoctet] at hdiv hmod
  have hbhi := congrArg HexDigit.byte (HexDigit.upper_of_isUpper hhi)
  have hblo := congrArg HexDigit.byte (HexDigit.upper_of_isUpper hlo)
  simp only [HexDigit.upper] at hbhi hblo
  rw [Token.spelling_triplet, hdiv, hmod, hbhi, hblo]

theorem iriToUri_of_ascii {bs : List UInt8} (h : ∀ b ∈ bs, b < 0x80) : iriToUri bs = bs := by
  induction bs with
  | nil => rfl
  | cons b bs ih =>
    rw [List.forall_mem_cons] at h
    rw [iriToUri, List.flatMap_cons, if_pos h.1]
    exact congrArg (b :: ·) (ih h.2)

theorem iriToUri_of_nonAscii {bs : List UInt8} (h : ∀ b ∈ bs, 0x80 ≤ b) :
    iriToUri bs = spell (bs.map tripletOf) := by
  induction bs with
  | nil => rfl
  | cons b bs ih =>
    rw [List.forall_mem_cons] at h
    rw [iriToUri, List.flatMap_cons, if_neg (UInt8.not_lt.mpr h.1), ← spelling_tripletOf]
    exact congrArg ((tripletOf b).spelling ++ ·) (ih h.2)

theorem iriToUri_charTokens (v : UriReserved) (c : Char) :
    iriToUri (spell (charTokens v.toIri.encoder c)) = spell (charTokens v.encoder c) := by
  have htriplets : iriToUri (spell ((String.utf8EncodeChar c).map tripletOf)) =
      spell ((String.utf8EncodeChar c).map tripletOf) :=
    iriToUri_of_ascii (spell_lt (List.forall_mem_map.mpr fun _ _ => rfl))
  by_cases hc : c.toNat < 0x80
  · have hsame : charTokens v.toIri.encoder c = charTokens v.encoder c := by
      unfold charTokens
      rw [show v.toIri.encoder.encode c = v.encoder.encode c from v.encode_toIri hc]
    rw [hsame]
    exact iriToUri_of_ascii (spell_charTokens_lt hc)
  · have hge := Nat.not_lt.mp hc
    have huri : charTokens v.encoder c = (String.utf8EncodeChar c).map tripletOf := by
      unfold charTokens
      rw [show v.encoder.encode c = true from v.encode_nonAscii hge]
      rfl
    rw [huri]
    unfold charTokens
    split
    · exact htriplets
    · have hne : c ≠ '%' := by
        rintro rfl
        exact hc (by decide)
      rw [spell_map_keptToken (percent_notMem_encodeChar hne)]
      exact iriToUri_of_nonAscii fun b => Utf8.encodeChar_ge hge

theorem iriToUri_encodeTokens (v : UriReserved) (src : List Char) :
    iriToUri (spell (encodeTokens v.toIri.encoder src)) = spell (encodeTokens v.encoder src) := by
  induction src with
  | nil => rfl
  | cons c src ih =>
    rw [encodeTokens_cons, encodeTokens_cons, spell_append, spell_append, iriToUri,
      List.flatMap_append]
    exact congrArg₂ _ (iriToUri_charTokens v c) ih

/-- Mapping the IRI encoding of a text gives its URI encoding, so the two are equal
values, by characters and by bytes. -/
theorem iriToUri_encode (B : Build ε) (v : UriReserved) :
    (∀ src : List Char,
      iriToUri (PctString.encode src v.toIri.encoder).raw = (PctString.encode src v.encoder).raw ∧
        (PctString.encode src v.toIri.encoder).asPctStr.eq
          (PctString.encode src v.encoder).asPctStr = .ok true) ∧
      ∀ src : String, ∃ iri uri, PctString.encodeBytes B src v.toIri.encoder = .ok iri ∧
        PctString.encodeBytes B src v.encoder = .ok uri ∧ iriToUri iri.raw = uri.raw ∧
        iri.asPctStr.eq uri.asPctStr = .ok true := by
  have hmap (src : List Char) :
      iriToUri (PctString.encode src v.toIri.encoder).raw =
        (PctString.encode src v.encoder).raw := by
    rw [PctString.encode_eq, PctString.encode_eq]
    exact iriToUri_encodeTokens v src
  have heq (src : List Char) : (PctString.encode src v.toIri.encoder).asPctStr.eq
      (PctString.encode src v.encoder).asPctStr = .ok true := by
    rw [PctString.encode_eq, PctString.encode_eq, PctString.asPctStr, PctString.asPctStr,
      PctStr.eq_spell, octets_encodeTokens, octets_encodeTokens, decide_eq_true rfl]
  exact ⟨fun src => ⟨hmap src, heq src⟩, fun src => ⟨_, _, v.toIri.consistent.encodeBytes_eq B src,
    v.consistent.encodeBytes_eq B src, hmap src.toList, heq src.toList⟩⟩

end Pct
