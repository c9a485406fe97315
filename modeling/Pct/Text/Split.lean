import Pct.Text.Token
import Mathlib.Data.List.Induction

/-!
# Split characters

The octets of a text may be well-formed UTF-8 while its raw bytes are not: a
character beyond ASCII can be spelled by literal bytes and triplets both. A text
splits a character where the spelling changes in front of a continuation octet
(`Splits`), and among the texts with a well-formed decoding these are exactly the
ones that are not UTF-8 themselves (`wellFormed_spell_iff`).
-/

namespace Pct

open Utf8

/-- The spelling changes inside of a character. -/
def Splits (ts : List Token) : Prop :=
  ∃ pre t u post, ts = pre ++ t :: u :: post ∧ t.isTriplet ≠ u.isTriplet ∧
    isContinuation u.octet = true

theorem Splits.append_left {us : List Token} (h : Splits us) (ts : List Token) :
    Splits (ts ++ us) := by
  obtain ⟨pre, t, u, post, rfl, hne, hu⟩ := h
  exact ⟨ts ++ pre, t, u, post, by simp, hne, hu⟩

theorem Splits.append_right {ts : List Token} (h : Splits ts) (us : List Token) :
    Splits (ts ++ us) := by
  obtain ⟨pre, t, u, post, rfl, hne, hu⟩ := h
  exact ⟨pre, t, u, post ++ us, by simp, hne, hu⟩

/-! ## Texts without split characters -/

/-- What follows a token inside of a character is spelled like it. -/
theorem isTriplet_eq_of_not_splits {t : Token} {us : List Token} (h : ¬ Splits (t :: us))
    (hus : ∀ u ∈ us, isContinuation u.octet = true) : ∀ u ∈ us, u.isTriplet = t.isTriplet := by
  induction us generalizing t with
  | nil => simp
  | cons u us ih =>
    rw [List.forall_mem_cons] at hus
    have hu : u.isTriplet = t.isTriplet := by
      by_contra hne
      exact h ⟨[], t, u, us, rfl, Ne.symm hne, hus.1⟩
    have htail := ih (fun hs => h (hs.append_left [t])) hus.2
    exact List.forall_mem_cons.mpr ⟨hu, fun v hv => (htail v hv).trans hu⟩

theorem spell_eq_octets {ts : List Token} (h : ∀ t ∈ ts, t.isTriplet = false) :
    spell ts = octets ts := by
  induction ts with
  | nil => rfl
  | cons t ts ih =>
    rw [List.forall_mem_cons] at h
    cases t with
    | literal b => simp [ih h.2]
    | triplet hi lo => simp at h

/-- A character without a change of spelling is text in either spelling. -/
theorem wellFormed_spell_encodeChar {c : Char} {ts : List Token}
    (hts : octets ts = String.utf8EncodeChar c) (h : ¬ Splits ts) : WellFormed (spell ts) := by
  obtain ⟨b, os, hc, -, hos⟩ := encodeChar_shape c
  rw [hc] at hts
  obtain ⟨t, us, rfl, -, rfl⟩ := List.map_eq_cons_iff.mp hts
  have hus := isTriplet_eq_of_not_splits h (List.forall_mem_map.mp hos)
  cases ht : t.isTriplet with
  | false =>
    have hlit : ∀ u ∈ t :: us, u.isTriplet = false := by simpa [ht] using hus
    rw [spell_eq_octets hlit, hts, ← hc]
    exact wellFormed_encodeChar c
  | true =>
    have htriplet : ∀ u ∈ t :: us, u.isTriplet = true := by simpa [ht] using hus
    exact wellFormed_of_ascii (spell_lt htriplet)

theorem wellFormed_spell_of_not_splits {ts : List Token} (hts : WellFormed (octets ts))
    (h : ¬ Splits ts) : WellFormed (spell ts) := by
  obtain ⟨cs, hcs⟩ := hts
  induction cs generalizing ts with
  | nil =>
    obtain rfl : ts = [] := by simpa [octets] using hcs.symm
    exact wellFormed_nil
  | cons c cs ih =>
    obtain ⟨us, vs, rfl, hus, hvs⟩ := List.map_eq_append_iff.mp hcs.symm
    rw [spell_append]
    have hhead := wellFormed_spell_encodeChar hus fun hs => h (hs.append_right vs)
    exact hhead.append (ih (fun hs => h (hs.append_left us)) hvs.symm)

/-! ## Texts with a split character -/

/-- A raw text that ends in literal bytes ends with a character, and the octets go on
behind it. The induction takes the literal run at the end apart. -/
theorem wellFormed_of_literal_run (ts : List Token) {b : UInt8} {run os : List UInt8}
    (hraw : WellFormed (spell ts ++ b :: run)) (hos : WellFormed (octets ts ++ b :: run ++ os)) :
    WellFormed os := by
  induction ts using List.reverseRecOn generalizing b run with
  | nil => exact hos.cancel hraw
  | append_singleton ts t ih =>
    cases t with
    | literal x => exact @ih x.byte (b :: run) (by simpa using hraw) (by simpa using hos)
    | triplet hi lo =>
      have hrun : WellFormed (b :: run) := by
        have hcut : spell (ts ++ [.triplet hi lo]) ++ b :: run =
            (spell ts ++ [percent, hi.byte]) ++ lo.byte :: b :: run := by simp
        rw [hcut] at hraw
        exact ((wellFormed_append_ascii lo.byte_lt).mp hraw).2
      have hcut : octets (ts ++ [.triplet hi lo]) ++ b :: run ++ os =
          octets (ts ++ [.triplet hi lo]) ++ b :: (run ++ os) := by simp
      rw [hcut] at hos
      exact (hos.split hrun.head).2.cancel hrun

theorem not_wellFormed_spell_of_splits {ts : List Token} (hts : WellFormed (octets ts))
    (h : Splits ts) : ¬ WellFormed (spell ts) := by
  obtain ⟨pre, t, u, post, rfl, hne, hu⟩ := h
  intro hraw
  have hrest : WellFormed (u.octet :: octets post) := by
    cases t with
    | literal b =>
      -- the raw text ends with the literal run in front of the triplet `u`
      cases u with
      | literal _ => simp at hne
      | triplet hi lo =>
        have hcut : spell (pre ++ .literal b :: .triplet hi lo :: post) =
            (spell pre ++ [b.byte]) ++ percent :: hi.byte :: lo.byte :: spell post := by simp
        rw [hcut] at hraw
        have hend := ((wellFormed_append_ascii (by decide)).mp hraw).1
        exact wellFormed_of_literal_run pre hend (by simpa using hts)
    | triplet hi lo =>
      -- the raw text is cut in front of the literal byte `u`
      cases u with
      | triplet _ _ => simp at hne
      | literal b =>
        have hcut : spell (pre ++ .triplet hi lo :: .literal b :: post) =
            (spell pre ++ [percent, hi.byte]) ++ lo.byte :: b.byte :: spell post := by simp
        rw [hcut] at hraw
        have hb := ((wellFormed_append_ascii lo.byte_lt).mp hraw).2.head
        rw [Token.octet_literal] at hu
        rw [hb] at hu
        cases hu
  have := hrest.head
  simp [this] at hu

/-- The raw bytes of a text with a well-formed decoding are text themselves exactly
when no character is split. -/
theorem wellFormed_spell_iff {ts : List Token} (hts : WellFormed (octets ts)) :
    WellFormed (spell ts) ↔ ¬ Splits ts :=
  ⟨fun hraw h => not_wellFormed_spell_of_splits hts h hraw, wellFormed_spell_of_not_splits hts⟩

/-- The texts with a well-formed decoding that split a character of it. -/
def SplitsCharacter (bs : List UInt8) : Prop :=
  ∃ ts, spell ts = bs ∧ WellFormed (octets ts) ∧ Splits ts

theorem Accepted.wellFormed_iff {bs : List UInt8} (h : Accepted bs) :
    WellFormed bs ↔ ¬ SplitsCharacter bs := by
  obtain ⟨ts, rfl, hts⟩ := accepted_iff.mp h
  rw [wellFormed_spell_iff hts]
  constructor
  · rintro hs ⟨us, hus, -, hsplits⟩
    obtain rfl := spell_injective hus
    exact hs hsplits
  · exact fun hs h => hs ⟨ts, rfl, hts, h⟩

theorem SplitsCharacter.accepted {bs : List UInt8} (h : SplitsCharacter bs) : Accepted bs := by
  obtain ⟨ts, hts, hwf, -⟩ := h
  exact accepted_iff.mpr ⟨ts, hts, hwf⟩

end Pct
