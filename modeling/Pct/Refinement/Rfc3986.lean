import Pct.Refinement.Decoding
import Pct.Text.Normal

/-!
# The RFC 3986 iterator yields the normal form

`Rfc3986Bytes` writes a triplet it keeps through its two pending bytes, so the
iterator is followed from the states whose pending bytes are used up. From there it
yields the spelling of the normalized tokens, and equality and order of the streams
are those of the normal forms.
-/

namespace Pct

open Rust

variable {ε : Type} {B : Build ε}

/-! ## Bytes -/

theorem isUnreservedByte_eq (b : UInt8) : isUnreservedByte b = isUnreserved b := by
  unfold isUnreservedByte isUnreserved isAlpha isDigit
  grind

theorem toUpperHexByte_byte (d : HexDigit) : toUpperHexByte d.byte = d.upper.byte := by
  have h := d.isHex
  unfold isHexDigit at h
  show toUpperHexByte d.byte = upperByte d.value
  unfold toUpperHexByte upperByte HexDigit.value
  grind

/-! ## The iterator -/

namespace Rfc3986Bytes

/-- The pending bytes are used up. -/
def Drained (s : Rfc3986Bytes) : Prop := s.pendingLen ≤ s.pendingPos

theorem next_literal {s : Rfc3986Bytes} (h : s.Drained) {b : Literal} {bs : List UInt8}
    (hs : s.iter = b.byte :: bs) :
    iterator.next s = .ok (some (b.byte, { s with iter := bs })) := by
  have hpos : ¬ s.pendingPos < s.pendingLen := Nat.not_lt.mpr h
  simp [iterator, next, hpos, hs, b.ne_percent]

theorem next_triplet {s : Rfc3986Bytes} (h : s.Drained) {hi lo : HexDigit} {bs : List UInt8}
    (hs : s.iter = percent :: hi.byte :: lo.byte :: bs) :
    iterator.next s = .ok (some (
      if isUnreserved (Token.triplet hi lo).octet then
        ((Token.triplet hi lo).octet, { s with iter := bs })
      else (percent, ⟨bs, #v[hi.upper.byte, lo.upper.byte], 2, 0⟩))) := by
  have hpos : ¬ s.pendingPos < s.pendingLen := Nat.not_lt.mpr h
  simp only [iterator, next, if_neg hpos, hs, if_true, nextTwo, Exec.ok_bind, decodeTriplet_byte,
    isUnreservedByte_eq, toUpperHexByte_byte]
  split <;> rfl

/-- The two pending bytes come first. -/
theorem collect_pending {bs out : List UInt8} {h1 h2 : UInt8}
    (h : iterator.collect ⟨bs, #v[h1, h2], 2, 2⟩ = .ok out) :
    iterator.collect ⟨bs, #v[h1, h2], 2, 0⟩ = .ok (h1 :: h2 :: out) := by
  have hfirst : iterator.next ⟨bs, #v[h1, h2], 2, 0⟩ =
      .ok (some (h1, ⟨bs, #v[h1, h2], 2, 1⟩)) := rfl
  have hsecond : iterator.next ⟨bs, #v[h1, h2], 2, 1⟩ =
      .ok (some (h2, ⟨bs, #v[h1, h2], 2, 2⟩)) := rfl
  rw [Iter.collect_cons _ hfirst, Iter.collect_cons _ hsecond, h, Exec.map_ok, Exec.map_ok]

theorem collect_spell (ts : List Token) {s : Rfc3986Bytes} (h : s.Drained)
    (hs : s.iter = spell ts) : iterator.collect s = .ok (spell (normalize ts)) := by
  induction ts generalizing s with
  | nil =>
    have hpos : ¬ s.pendingPos < s.pendingLen := Nat.not_lt.mpr h
    exact Iter.collect_nil _ (by simp [iterator, next, hpos, hs])
  | cons t ts ih =>
    cases t with
    | literal b =>
      have hrest := ih (s := { s with iter := spell ts }) h rfl
      rw [Iter.collect_cons _ (next_literal h hs)]
      exact congrArg ((b.byte :: ·) <$> ·) hrest
    | triplet hi lo =>
      have hnext := next_triplet h hs
      by_cases hu : isUnreserved (Token.triplet hi lo).octet = true
      · have hrest := ih (s := { s with iter := spell ts }) h rfl
        rw [if_pos hu] at hnext
        rw [Iter.collect_cons _ hnext, normalize_cons, spell_cons, Token.normalize, dif_pos hu]
        exact congrArg ((Token.octet _ :: ·) <$> ·) hrest
      · -- the pending bytes are used up before the next token
        have hrest := ih (s := ⟨spell ts, #v[hi.upper.byte, lo.upper.byte], 2, 2⟩)
          (Nat.le_refl 2) rfl
        rw [if_neg hu] at hnext
        rw [Iter.collect_cons _ hnext, normalize_cons, spell_cons, Token.normalize, dif_neg hu]
        exact congrArg ((percent :: ·) <$> ·) (collect_pending hrest)

end Rfc3986Bytes

/-! ## The normal form of a value -/

@[simp] theorem PctStr.bytesRfc3986_spell (ts : List Token) :
    PctStr.bytesRfc3986 ⟨spell ts⟩ = .ok (spell (normalize ts)) :=
  Rfc3986Bytes.collect_spell ts (Nat.le_refl 0) rfl

theorem PctStr.eqRfc3986_spell (ts us : List Token) :
    PctStr.eqRfc3986 ⟨spell ts⟩ ⟨spell us⟩ = .ok (decide (normalize ts = normalize us)) := by
  unfold PctStr.eqRfc3986
  split
  · rename_i hraw
    rw [spell_injective hraw, decide_eq_true rfl]
  · rw [Iter.eq_of_collect _ _ (PctStr.bytesRfc3986_spell ts) (PctStr.bytesRfc3986_spell us)]
    simp only [spell_injective.eq_iff]

theorem PctStr.cmpRfc3986_spell (ts us : List Token) :
    PctStr.cmpRfc3986 ⟨spell ts⟩ ⟨spell us⟩ =
      .ok (compare (spell (normalize ts)) (spell (normalize us))) :=
  Iter.cmp_of_collect _ _ (PctStr.bytesRfc3986_spell ts) (PctStr.bytesRfc3986_spell us)

/-- Two valid values are equal under `eq_rfc3986` exactly when they consist of
equivalent tokens, and then `cmp_rfc3986` does not order them. -/
theorem eqRfc3986_iff_equiv (hB : B.Lawful) {a b : PctStr} (ha : a.Valid B) (hb : b.Valid B) :
    ∃ r o, a.eqRfc3986 b = .ok r ∧ a.cmpRfc3986 b = .ok o ∧
      (r = true ↔ ∃ ts us, spell ts = a.raw ∧ spell us = b.raw ∧ List.Forall₂ Token.Equiv ts us) ∧
      (o = .eq ↔ r = true) := by
  obtain ⟨ts, rfl, -⟩ := ha.exists_tokens hB
  obtain ⟨us, rfl, -⟩ := hb.exists_tokens hB
  refine ⟨_, _, PctStr.eqRfc3986_spell ts us, PctStr.cmpRfc3986_spell ts us, ?_, ?_⟩
  · rw [decide_eq_true_iff, normalize_eq_iff]
    constructor
    · exact fun h => ⟨ts, us, rfl, rfl, h⟩
    · rintro ⟨ts', us', hts, hus, h⟩
      rwa [spell_injective hts, spell_injective hus] at h
  · rw [Std.LawfulEqOrd.compare_eq_iff_eq, spell_injective.eq_iff, decide_eq_true_iff]

theorem eqRfc3986_iff_equiv_letter :
    ∃ r, PctStr.eqRfc3986 ⟨[0x25, 0x36, 0x31]⟩ ⟨[0x61]⟩ = .ok r ∧
      (r = true ↔ ∃ ts us, spell ts = [0x25, 0x36, 0x31] ∧ spell us = [0x61] ∧
        List.Forall₂ Token.Equiv ts us) := by
  have hB := referenceBuild_lawful true false
  obtain ⟨r, o, hr, -, hequiv, -⟩ := eqRfc3986_iff_equiv hB
    (hB.valid_of_ascii [tripletOf 0x61] (by simp))
    (hB.valid_of_ascii [.literal ⟨0x61, by decide⟩] (by simp))
  exact ⟨r, hr, hequiv⟩

/-- The normal form of a valid value is valid, stands for the same octets, is its own
normal form and is equivalent to the value. -/
theorem normal_form_spec (hB : B.Lawful) {p : PctStr} (hp : p.Valid B) :
    ∃ n : PctStr, p.bytesRfc3986 = .ok n.raw ∧ n.Valid B ∧ n.eq p = .ok true ∧
      n.bytesRfc3986 = .ok n.raw ∧ p.eqRfc3986 n = .ok true ∧
      (Utf8.WellFormed p.raw → Utf8.WellFormed n.raw) ∧
      ∀ q : PctStr, q.Valid B → p.eqRfc3986 q = .ok true → p.eq q = .ok true := by
  obtain ⟨ts, rfl, hwf⟩ := hp.exists_tokens hB
  refine ⟨⟨spell (normalize ts)⟩, PctStr.bytesRfc3986_spell ts, ?_, ?_, ?_, ?_,
    (wellFormed_spell_normalize ts).mpr, ?_⟩
  · exact hB.valid_iff.mpr ((accepted_spell _).mpr (by rwa [octets_normalize]))
  · rw [PctStr.eq_spell, octets_normalize, decide_eq_true rfl]
  · rw [PctStr.bytesRfc3986_spell, normalize_normalize]
  · rw [PctStr.eqRfc3986_spell, normalize_normalize, decide_eq_true rfl]
  · intro q hq heq
    obtain ⟨us, rfl, -⟩ := hq.exists_tokens hB
    rw [PctStr.eqRfc3986_spell] at heq
    have hnormal : normalize ts = normalize us := by simpa using heq
    rw [PctStr.eq_spell, ← octets_normalize ts, hnormal, octets_normalize, decide_eq_true rfl]

theorem normal_form_spec_letter :
    ∃ n : PctStr, PctStr.bytesRfc3986 ⟨[0x25, 0x36, 0x31]⟩ = .ok n.raw ∧
      n.bytesRfc3986 = .ok n.raw := by
  have hB := referenceBuild_lawful true false
  obtain ⟨n, hn, -, -, hidem, -⟩ := normal_form_spec hB
    (hB.valid_of_ascii [tripletOf 0x61] (by simp))
  exact ⟨n, hn, hidem⟩

end Pct
