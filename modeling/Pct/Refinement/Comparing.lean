import Pct.Library.Utf8Order
import Pct.Refinement.Decoding

/-!
# Characters, equality and order

On valid values the characters, their number and all comparisons are those of the decoded
text. The comparisons run on decoded bytes; since UTF-8 keeps the order of code points,
they compare the characters too, and the spelling of a value plays no part.
-/

namespace Pct

open Rust

variable {ε : Type} {B : Build ε}

/-! ## Characters -/

theorem PctStr.len_spell {ts : List Token} {cs : List Char} (h : Utf8.encode cs = octets ts) :
    PctStr.len ⟨spell ts⟩ = .ok cs.length := by
  rw [PctStr.len, PctStr.bytes_spell, Exec.ok_bind, Exec.pure_eq, ← h]
  exact congrArg _ (Utf8.length_filter_encode cs)

/-- The characters of a valid value are those of its decoding, and `len` counts them. -/
theorem chars_spec (hB : B.Lawful) {p : PctStr} (hp : p.Valid B) :
    ∃ (cs : List Char) (s : String), p.chars B = .ok cs ∧ p.decode B = .ok s ∧ cs = s.toList ∧
      p.len = .ok cs.length := by
  obtain ⟨ts, rfl, cs, hcs⟩ := hp.exists_tokens hB
  exact ⟨cs, String.ofList cs, hB.chars_spell hcs, hB.decode_spell hcs,
    String.toList_ofList.symm, PctStr.len_spell hcs⟩

theorem chars_spec_bothSpellings :
    PctStr.chars (referenceBuild true false) ⟨bothSpellings⟩ = .ok ['é', 'é'] ∧
      PctStr.len ⟨bothSpellings⟩ = .ok 2 := by
  have hB := referenceBuild_lawful true false
  obtain ⟨cs, s, hcs, hs, rfl, hlen⟩ := chars_spec hB (hB.valid_iff.mpr accepted_bothSpellings)
  have hdecode : PctStr.decode (referenceBuild true false) ⟨bothSpellings⟩ = .ok "éé" := by
    decide +kernel
  obtain rfl := Except.ok.inj (hdecode.symm.trans hs)
  exact ⟨hcs, hlen⟩

/-! ## Comparisons -/

theorem PctStr.eqStr_spell (ts : List Token) (u : String) :
    PctStr.eqStr ⟨spell ts⟩ u = .ok (decide (octets ts = Utf8.encode u.toList)) :=
  Iter.eq_of_collect _ _ (Bytes.collect_spell ts) (Iter.collect_ofSlice _)

theorem PctStr.cmp_spell (ts us : List Token) :
    PctStr.cmp ⟨spell ts⟩ ⟨spell us⟩ = .ok (compare (octets ts) (octets us)) :=
  Iter.cmp_of_collect _ _ (Bytes.collect_spell ts) (Bytes.collect_spell us)

variable (B) in
/-- The values that the constructors accept. -/
abbrev PctStr.Value : Type := { p : PctStr // p.Valid B }

namespace PctStr.Value

/-- What a value stands for. -/
def octets (a : Value B) : List UInt8 := (referenceDecode a.1.raw).getD []

theorem exists_tokens (hB : B.Lawful) (a : Value B) :
    ∃ ts, a.1 = ⟨spell ts⟩ ∧ a.octets = Pct.octets ts ∧ Utf8.WellFormed (Pct.octets ts) := by
  obtain ⟨ts, hts, hwf⟩ := a.2.exists_tokens hB
  exact ⟨ts, hts, by simp [octets, hts], hwf⟩

/-- Values are equal when they stand for the same octets, -/
theorem eq_eq (hB : B.Lawful) (a b : Value B) :
    a.1.eq b.1 = .ok (decide (a.octets = b.octets)) := by
  obtain ⟨ts, hts, ha, -⟩ := a.exists_tokens hB
  obtain ⟨us, hus, hb, -⟩ := b.exists_tokens hB
  rw [hts, hus, PctStr.eq_spell, ha, hb]

/-- and ordered by these octets. -/
theorem cmp_eq (hB : B.Lawful) (a b : Value B) :
    a.1.cmp b.1 = .ok (compareOn octets a b) := by
  obtain ⟨ts, hts, ha, -⟩ := a.exists_tokens hB
  obtain ⟨us, hus, hb, -⟩ := b.exists_tokens hB
  rw [hts, hus, PctStr.cmp_spell, compareOn, ha, hb]

/-- The text of a value: what `decode` returns and `chars` yields, encoded in its octets. -/
theorem exists_text (hB : B.Lawful) (a : Value B) :
    ∃ s : String, a.1.decode B = .ok s ∧ a.1.chars B = .ok s.toList ∧
      a.octets = Utf8.encode s.toList := by
  obtain ⟨ts, hts, ha, cs, hcs⟩ := a.exists_tokens hB
  refine ⟨String.ofList cs, ?_, ?_, ?_⟩
  · rw [hts, hB.decode_spell hcs]
  · rw [hts, hB.chars_spell hcs, String.toList_ofList]
  · rw [ha, ← hcs, String.toList_ofList]

theorem eqStr_eq (hB : B.Lawful) (a : Value B) (u : String) :
    a.1.eqStr u = .ok (decide (a.octets = Utf8.encode u.toList)) := by
  obtain ⟨ts, hts, ha, -⟩ := a.exists_tokens hB
  rw [hts, PctStr.eqStr_spell, ha]

/-- Two values with one text have the same octets, however they are spelled. -/
theorem octets_eq_of_decode (hB : B.Lawful) {a b : Value B} (h : a.1.decode B = b.1.decode B) :
    a.octets = b.octets := by
  obtain ⟨s, hs, -, has⟩ := a.exists_text hB
  obtain ⟨t, ht, -, hbt⟩ := b.exists_text hB
  have hst : s = t := by
    rw [hs, ht] at h
    exact Except.ok.inj h
  rw [has, hbt, hst]

end PctStr.Value

/-- Equality and order are those of the decoded text, taken as bytes or as characters.
So `eq` is an equivalence, `cmp` is a total order up to `eq`, and the spelling plays no part. -/
theorem comparisons_of_decoded (hB : B.Lawful) :
    (∀ a b : PctStr.Value B, ∃ s t : String,
      a.1.decode B = .ok s ∧ a.1.chars B = .ok s.toList ∧
      b.1.decode B = .ok t ∧ b.1.chars B = .ok t.toList ∧
      a.1.eq b.1 = .ok (decide (s = t)) ∧ (a.1.cmp b.1 = .ok .eq ↔ s = t) ∧
      (∀ u, a.1.eqStr u = .ok (decide (s = u))) ∧
      a.1.cmp b.1 = .ok (compare (Utf8.encode s.toList) (Utf8.encode t.toList)) ∧
      a.1.cmp b.1 = .ok (compare s.toList t.toList)) ∧
    Equivalence (fun a b : PctStr.Value B => a.1.eq b.1 = .ok true) ∧
    (∃ cmp : PctStr.Value B → PctStr.Value B → Ordering, Std.TransCmp cmp ∧
      ∀ a b, a.1.cmp b.1 = .ok (cmp a b) ∧ (cmp a b = .eq ↔ a.1.eq b.1 = .ok true)) ∧
    ∀ a a' b b' : PctStr.Value B,
      a.1.decode B = a'.1.decode B → b.1.decode B = b'.1.decode B →
        a.1.eq b.1 = a'.1.eq b'.1 ∧ a.1.cmp b.1 = a'.1.cmp b'.1 := by
  have heq : ∀ a b : PctStr.Value B, a.1.eq b.1 = .ok true ↔ a.octets = b.octets := by
    intro a b
    simp [PctStr.Value.eq_eq hB]
  refine ⟨?_, ⟨?_, ?_, ?_⟩, ?_, ?_⟩
  · intro a b
    obtain ⟨s, hs, hsc, has⟩ := a.exists_text hB
    obtain ⟨t, ht, htc, hbt⟩ := b.exists_text hB
    have hcmp : a.1.cmp b.1 = .ok (compare (Utf8.encode s.toList) (Utf8.encode t.toList)) := by
      rw [PctStr.Value.cmp_eq hB, compareOn, has, hbt]
    refine ⟨s, t, hs, hsc, ht, htc, ?_, ?_, ?_, hcmp, ?_⟩
    · simp only [PctStr.Value.eq_eq hB, has, hbt, Utf8.encode_toList_inj]
    · rw [hcmp, Except.ok.injEq, Std.compare_eq_iff_eq, Utf8.encode_toList_inj]
    · intro u
      simp only [PctStr.Value.eqStr_eq hB, has, Utf8.encode_toList_inj]
    · rw [hcmp, Utf8.compare_encode]
  · intro a
    exact (heq a a).mpr rfl
  · intro a b h
    exact (heq b a).mpr ((heq a b).mp h).symm
  · intro a b c hab hbc
    exact (heq a c).mpr (((heq a b).mp hab).trans ((heq b c).mp hbc))
  · refine ⟨compareOn PctStr.Value.octets, inferInstance, ?_⟩
    intro a b
    refine ⟨PctStr.Value.cmp_eq hB a b, ?_⟩
    rw [heq, compareOn, Std.compare_eq_iff_eq]
  · intro a a' b b' ha hb
    have haa := PctStr.Value.octets_eq_of_decode hB ha
    have hbb := PctStr.Value.octets_eq_of_decode hB hb
    rw [PctStr.Value.eq_eq hB, PctStr.Value.eq_eq hB, PctStr.Value.cmp_eq hB,
      PctStr.Value.cmp_eq hB, compareOn, compareOn, haa, hbb]
    exact ⟨rfl, rfl⟩

theorem comparisons_of_decoded_triplet :
    ∃ s t : String, PctStr.decode (referenceBuild true false) ⟨[0x25, 0x34, 0x31]⟩ = .ok s ∧
      PctStr.decode (referenceBuild true false) ⟨[0x62]⟩ = .ok t ∧
      PctStr.eq ⟨[0x25, 0x34, 0x31]⟩ ⟨[0x62]⟩ = .ok (decide (s = t)) := by
  have hB := referenceBuild_lawful true false
  obtain ⟨s, t, hs, -, ht, -, heq, -⟩ := (comparisons_of_decoded hB).1
    ⟨_, hB.valid_of_ascii [tripletOf 0x41] (by simp)⟩
    ⟨_, hB.valid_of_ascii [.literal ⟨0x62, by decide⟩] (by simp)⟩
  exact ⟨s, t, hs, ht, heq⟩

end Pct
