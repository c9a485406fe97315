import Pct.Refinement.Soundness

/-!
# What `encode_bytes` can write

An encoder may claim anything in its table and its shuffle. Whatever it claims, the output
is a concatenation of blocks, one for each character of the source: the character itself or
the triplets of its bytes. The claims only decide which of the two becomes of an ASCII
character; beyond ASCII `encode` does.
-/

namespace Pct

open Rust

variable {ε : Type}

/-- What may become of a character. -/
structure IsBlock (encoder : Encoder) (c : Char) (bs : List UInt8) : Prop where
  cases : bs = String.utf8EncodeChar c ∨ bs = spell ((String.utf8EncodeChar c).map tripletOf)
  nonAscii : 0x80 ≤ c.toNat → bs = spell (charTokens encoder c)

theorem isBlock_charTokens (encoder : Encoder) (c : Char) :
    IsBlock encoder c (spell (charTokens encoder c)) where
  cases := by
    unfold charTokens
    split
    · exact .inr rfl
    · have hc : c ≠ '%' := by simp_all
      exact .inl (spell_map_keptToken (percent_notMem_encodeChar hc))
  nonAscii _ := rfl

theorem isBlock_breakTokens (encoder : Encoder) (c : Char) :
    IsBlock encoder c (spell (breakTokens encoder c)) := by
  unfold breakTokens
  split
  · exact ⟨.inr rfl, fun h => by omega⟩
  · exact isBlock_charTokens encoder c

/-- A run of ASCII characters is copied. -/
theorem isBlock_run (encoder : Encoder) {run : List Char} (h : ∀ c ∈ run, c.toNat < 0x80) :
    List.Forall₂ (IsBlock encoder) run (run.map String.utf8EncodeChar) := by
  rw [List.forall₂_map_right_iff, List.forall₂_same]
  intro c hc
  exact ⟨.inl rfl, fun hge => absurd (h c hc) (Nat.not_lt.mpr hge)⟩

namespace IsBlock

variable {encoder : Encoder} {c : Char} {bs : List UInt8}

theorem wellFormed (h : IsBlock encoder c bs) : Utf8.WellFormed bs := by
  rcases h.cases with rfl | rfl
  · exact Utf8.wellFormed_encodeChar c
  · exact Utf8.wellFormed_of_ascii (spell_lt (List.forall_mem_map.mpr fun _ _ => rfl))

theorem length_spell_map_tripletOf (bs : List UInt8) :
    (spell (bs.map tripletOf)).length = 3 * bs.length := by
  induction bs with
  | nil => rfl
  | cons b bs ih =>
    rw [List.map_cons, spell_cons, List.length_append, ih, List.length_cons]
    simp only [tripletOf, Token.spelling_triplet, List.length_cons, List.length_nil]
    omega

/-- A block is as long as the character, or three times as long. -/
theorem length_bounds (h : IsBlock encoder c bs) :
    (String.utf8EncodeChar c).length ≤ bs.length ∧
      bs.length ≤ 3 * (String.utf8EncodeChar c).length := by
  rcases h.cases with rfl | rfl
  · omega
  · rw [length_spell_map_tripletOf]
    omega

end IsBlock

theorem wellFormed_blocks {encoder : Encoder} {src : List Char} {blocks : List (List UInt8)}
    (h : List.Forall₂ (IsBlock encoder) src blocks) : Utf8.WellFormed blocks.flatten := by
  induction h with
  | nil => exact Utf8.wellFormed_nil
  | cons hblock _ ih => exact hblock.wellFormed.append ih

theorem length_blocks {encoder : Encoder} {src : List Char} {blocks : List (List UInt8)}
    (h : List.Forall₂ (IsBlock encoder) src blocks) :
    (Utf8.encode src).length ≤ blocks.flatten.length ∧
      blocks.flatten.length ≤ 3 * (Utf8.encode src).length := by
  induction h with
  | nil => exact ⟨Nat.le_refl 0, Nat.le_refl 0⟩
  | cons hblock _ ih =>
    have hlen := hblock.length_bounds
    rw [List.flatten_cons, Utf8.encode_cons, List.length_append, List.length_append]
    omega

/-- The blocks of an output. -/
theorem exists_blocks (B : Build ε) (encoder : Encoder) (src : String) :
    ∃ blocks, List.Forall₂ (IsBlock encoder) src.toList blocks ∧
      PctString.encodeBytes B src encoder = .ok ⟨blocks.flatten⟩ := by
  unfold PctString.encodeBytes
  split
  · rename_i table htable
    obtain ⟨out, hout, blocks, hblocks, rfl⟩ := encodeBytesLoop_total B encoder table
      encoder.asciiKeepLoShuf src.toList
      (fun done out => ∃ blocks, List.Forall₂ (IsBlock encoder) done blocks ∧ blocks.flatten = out)
      (fun out => ∃ blocks, List.Forall₂ (IsBlock encoder) src.toList blocks ∧
        blocks.flatten = out)
      ⟨[], .nil, rfl⟩
      (by
        rintro done run c tail _ - hascii - ⟨blocks, hblocks, rfl⟩
        refine ⟨blocks ++ run.map String.utf8EncodeChar ++ [spell (breakTokens encoder c)], ?_, ?_⟩
        · exact List.rel_append (List.rel_append hblocks (isBlock_run encoder hascii))
            (.cons (isBlock_breakTokens encoder c) .nil)
        · simp [Utf8.encode, List.flatMap])
      (by
        rintro done run _ hsrc hascii - ⟨blocks, hblocks, rfl⟩
        refine ⟨blocks ++ run.map String.utf8EncodeChar, ?_, by simp [Utf8.encode, List.flatMap]⟩
        rw [hsrc, List.append_nil]
        exact List.rel_append hblocks (isBlock_run encoder hascii))
    dsimp only
    rw [hout]
    exact ⟨blocks, hblocks, rfl⟩
  · refine ⟨src.toList.map fun c => spell (charTokens encoder c), ?_, ?_⟩
    · rw [List.forall₂_map_right_iff, List.forall₂_same]
      exact fun c _ => isBlock_charTokens encoder c
    · rw [foldl_pushChar, List.nil_append, encodeTokens, spell, List.flatMap_assoc]
      rfl

/-- For any encoder, in any build, `encode_bytes` returns a block for every character of the
source, in order. So its output is UTF-8 and between one and three times as long. -/
theorem encodeBytes_blocks (B : Build ε) (encoder : Encoder) (src : String) :
    ∃ (x : PctString) (blocks : List (List UInt8)),
      PctString.encodeBytes B src encoder = .ok x ∧ x.raw = blocks.flatten ∧
      List.Forall₂ (IsBlock encoder) src.toList blocks ∧ Utf8.WellFormed x.raw ∧
      (Utf8.encode src.toList).length ≤ x.raw.length ∧
      x.raw.length ≤ 3 * (Utf8.encode src.toList).length := by
  obtain ⟨blocks, hblocks, hx⟩ := exists_blocks B encoder src
  exact ⟨_, blocks, hx, rfl, hblocks, wellFormed_blocks hblocks, length_blocks hblocks⟩

end Pct
