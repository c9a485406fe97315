import Pct.Refinement.Rfc3986Order
import Pct.Refinement.Soundness
import Pct.Source.Interface

/-!
# Sizes

How long a text, its octets, its normal form and its decoding are. The octets fit into as
many bytes as the text has, which is what `decode` reserves; `is_empty` looks at the raw
bytes only, but agrees with `len`.
-/

namespace Pct

open Rust

variable {ε : Type} {B : Build ε}

/-- A character takes one to four bytes. -/
theorem length_encode_bounds (cs : List Char) :
    cs.length ≤ (Utf8.encode cs).length ∧ (Utf8.encode cs).length ≤ 4 * cs.length := by
  induction cs with
  | nil => exact ⟨Nat.le_refl 0, Nat.le_refl 0⟩
  | cons c cs ih =>
    have hpos := Char.utf8Size_pos c
    have hle := Char.utf8Size_le_four c
    rw [Utf8.encode_cons, List.length_append, List.length_cons, String.length_utf8EncodeChar]
    omega

/-- A text has two bytes more than octets for every `%`, all of which start a triplet. -/
theorem length_octets_spell (ts : List Token) :
    (octets ts).length + 2 * (spell ts).count percent = (spell ts).length ∧
      (spell ts).length ≤ 3 * (octets ts).length := by
  have hcount : ts.countP Token.isTriplet ≤ ts.length := List.countP_le_length
  rw [length_spell, count_percent_spell, octets, List.length_map]
  omega

theorem octets_eq_nil {ts : List Token} : octets ts = [] ↔ ts = [] := List.map_eq_nil_iff

theorem spell_eq_nil {ts : List Token} : spell ts = [] ↔ ts = [] :=
  ⟨fun h => spell_injective h, fun h => h ▸ rfl⟩

/-- The sizes of a value: each `%` of the raw text costs two bytes, the normal form is in
between octets and raw text, a character has one to four octets, and only the empty text
has no characters. -/
theorem value_sizes (hB : B.Lawful) {p : PctStr} (hp : p.Valid B) :
    ∃ (os n : List UInt8) (s : String), p.bytes = .ok os ∧ p.bytesRfc3986 = .ok n ∧
      p.decode B = .ok s ∧ p.len = .ok s.length ∧
      os.length + 2 * p.raw.count percent = p.raw.length ∧
      os.length ≤ n.length ∧ n.length ≤ p.raw.length ∧ p.raw.length ≤ 3 * os.length ∧
      s.length ≤ os.length ∧ os.length ≤ 4 * s.length ∧ (p.isEmpty = true ↔ s.length = 0) := by
  obtain ⟨ts, rfl, cs, hcs⟩ := hp.exists_tokens hB
  obtain ⟨hraw, hle⟩ := length_octets_spell ts
  obtain ⟨hchars, hoctets⟩ := length_encode_bounds cs
  have hnormal := (length_octets_spell (normalize ts)).1
  rw [hcs] at hchars hoctets
  rw [octets_normalize] at hnormal
  refine ⟨octets ts, spell (normalize ts), String.ofList cs, PctStr.bytes_spell ts,
    PctStr.bytesRfc3986_spell ts, hB.decode_spell hcs, ?_, hraw, by omega,
    length_spell_normalize_le ts, hle, ?_, ?_, ?_⟩
  · rw [PctStr.len_spell hcs, String.length_ofList]
  · rwa [String.length_ofList]
  · rwa [String.length_ofList]
  · rw [PctStr.isEmpty, List.isEmpty_iff, spell_eq_nil, ← octets_eq_nil, ← hcs,
      Utf8.encode_eq_nil, String.length_ofList, List.length_eq_zero_iff]

theorem value_sizes_triplet :
    ∃ os : List UInt8, PctStr.bytes ⟨[0x25, 0x34, 0x31, 0x62]⟩ = .ok os ∧
      os.length + 2 * [0x25, 0x34, 0x31, (0x62 : UInt8)].count percent = 4 := by
  have hB := referenceBuild_lawful true false
  obtain ⟨os, _, _, hos, -, -, -, hlen, -⟩ := value_sizes hB
    (hB.valid_of_ascii [tripletOf 0x41, .literal ⟨0x62, by decide⟩] (by simp))
  exact ⟨os, hos, hlen⟩

end Pct
