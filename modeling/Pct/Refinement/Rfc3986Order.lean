import Pct.Refinement.Comparing
import Pct.Refinement.Rfc3986

/-!
# The classes of `eq_rfc3986`

Values that `eq_rfc3986` identifies form the classes of an equivalence, which
`cmp_rfc3986` orders. Each class has one value that is its own normal form, and no other
value of the class is shorter. A class lies within one of `==`, and what it leaves out there
are the values that spell an octet which is not unreserved in the other way.
-/

namespace Pct

open Rust

variable {ε : Type} {B : Build ε}

/-! ## Tokens -/

/-- Two spellings of an octet are equivalent unless it is not unreserved, and encoded in
one of them only. -/
theorem Token.equiv_iff {t u : Token} :
    t.Equiv u ↔ t.octet = u.octet ∧
      (isUnreserved t.octet = true ∨ t.isTriplet = u.isTriplet) := by
  constructor
  · intro h
    cases h with
    | literal b => exact ⟨rfl, .inr rfl⟩
    | triplet h => exact ⟨h, .inr rfl⟩
    | encoded hb h => exact ⟨h.symm, .inl hb⟩
    | decoded hb h => exact ⟨h, .inl (by rwa [h])⟩
  · rintro ⟨hoctet, h⟩
    cases t with
    | literal b =>
      cases u with
      | literal c =>
        obtain ⟨b, hb⟩ := b
        obtain ⟨c, hc⟩ := c
        obtain rfl : b = c := hoctet
        exact .literal _
      | triplet hi lo => exact .encoded (h.resolve_right nofun) hoctet.symm
    | triplet hi lo =>
      cases u with
      | literal b =>
        have hu := h.resolve_right nofun
        rw [hoctet] at hu
        exact .decoded hu hoctet
      | triplet hi' lo' => exact .triplet hoctet

theorem forall₂_equiv_iff {ts us : List Token} :
    List.Forall₂ Token.Equiv ts us ↔ octets ts = octets us ∧ List.Forall₂ (fun t u : Token =>
      isUnreserved t.octet = true ∨ t.isTriplet = u.isTriplet) ts us := by
  induction ts generalizing us with
  | nil => cases us <;> simp
  | cons t ts ih =>
    cases us with
    | nil => simp
    | cons u us =>
      rw [List.forall₂_cons, List.forall₂_cons, ih, Token.equiv_iff, octets_cons, octets_cons,
        List.cons.injEq]
      tauto

theorem Token.length_normalize_le (t : Token) :
    t.normalize.spelling.length ≤ t.spelling.length := by
  cases t with
  | literal b => exact Nat.le_refl _
  | triplet hi lo =>
    rw [normalize]
    split <;> simp

theorem length_spell_normalize_le (ts : List Token) :
    (spell (normalize ts)).length ≤ (spell ts).length := by
  induction ts with
  | nil => exact Nat.le_refl _
  | cons t ts ih =>
    rw [normalize_cons, spell_cons, spell_cons, List.length_append, List.length_append]
    exact Nat.add_le_add t.length_normalize_le ih

/-! ## Values -/

namespace PctStr.Value

def normalForm (a : Value B) : List UInt8 := ((parse a.1.raw).map (spell ∘ normalize)).getD []

theorem exists_normalForm (hB : B.Lawful) (a : Value B) :
    ∃ ts, a.1 = ⟨spell ts⟩ ∧ a.normalForm = spell (normalize ts) ∧
      Utf8.WellFormed (Pct.octets ts) := by
  obtain ⟨ts, hts, hwf⟩ := a.2.exists_tokens hB
  exact ⟨ts, hts, by simp [normalForm, hts], hwf⟩

theorem bytesRfc3986_eq (hB : B.Lawful) (a : Value B) : a.1.bytesRfc3986 = .ok a.normalForm := by
  obtain ⟨ts, hts, ha, -⟩ := a.exists_normalForm hB
  rw [hts, ha, PctStr.bytesRfc3986_spell]

theorem eqRfc3986_iff (hB : B.Lawful) (a b : Value B) :
    a.1.eqRfc3986 b.1 = .ok true ↔ a.normalForm = b.normalForm := by
  obtain ⟨ts, hts, ha, -⟩ := a.exists_normalForm hB
  obtain ⟨us, hus, hb, -⟩ := b.exists_normalForm hB
  rw [hts, hus, PctStr.eqRfc3986_spell, ha, hb, spell_injective.eq_iff, Except.ok.injEq,
    decide_eq_true_iff]

theorem cmpRfc3986_eq (hB : B.Lawful) (a b : Value B) :
    a.1.cmpRfc3986 b.1 = .ok (compareOn normalForm a b) := by
  obtain ⟨ts, hts, ha, -⟩ := a.exists_normalForm hB
  obtain ⟨us, hus, hb, -⟩ := b.exists_normalForm hB
  rw [hts, hus, PctStr.cmpRfc3986_spell, compareOn, ha, hb]

theorem length_normalForm_le (hB : B.Lawful) (a : Value B) :
    a.normalForm.length ≤ a.1.raw.length := by
  obtain ⟨ts, hts, ha, -⟩ := a.exists_normalForm hB
  rw [hts, ha]
  exact length_spell_normalize_le ts

/-- The normal form is a value of the class. -/
theorem exists_normal (hB : B.Lawful) (a : Value B) :
    ∃ n : Value B, n.1.raw = a.normalForm ∧ n.normalForm = a.normalForm := by
  obtain ⟨ts, hts, ha, hwf⟩ := a.exists_normalForm hB
  have hvalid : PctStr.Valid B ⟨spell (normalize ts)⟩ :=
    hB.valid_iff.mpr ((accepted_spell _).mpr (by rwa [octets_normalize]))
  exact ⟨⟨_, hvalid⟩, ha.symm, by simp [normalForm, hts]⟩

end PctStr.Value

/-- `cmp_rfc3986` orders the classes of the equivalence `eq_rfc3986`. Each class has one
value that `bytes_rfc3986` leaves as it is, and it is a shortest one. -/
theorem rfc3986_classes (hB : B.Lawful) :
    Equivalence (fun a b : PctStr.Value B => a.1.eqRfc3986 b.1 = .ok true) ∧
    (∃ cmp : PctStr.Value B → PctStr.Value B → Ordering, Std.TransCmp cmp ∧
      ∀ a b, a.1.cmpRfc3986 b.1 = .ok (cmp a b) ∧
        (cmp a b = .eq ↔ a.1.eqRfc3986 b.1 = .ok true)) ∧
    (∀ a : PctStr.Value B, ∃ n : PctStr.Value B,
      (∀ m : PctStr.Value B, a.1.eqRfc3986 m.1 = .ok true ∧ m.1.bytesRfc3986 = .ok m.1.raw ↔
        m = n) ∧
      ∀ b : PctStr.Value B, a.1.eqRfc3986 b.1 = .ok true → n.1.raw.length ≤ b.1.raw.length) ∧
    ∀ a b : PctStr.Value B, a.1.eqRfc3986 b.1 = .ok true ↔ a.1.eq b.1 = .ok true ∧
      ∃ ts us, spell ts = a.1.raw ∧ spell us = b.1.raw ∧ List.Forall₂ (fun t u : Token =>
        isUnreserved t.octet = true ∨ t.isTriplet = u.isTriplet) ts us := by
  refine ⟨⟨?_, ?_, ?_⟩, ⟨compareOn PctStr.Value.normalForm, inferInstance, ?_⟩, ?_, ?_⟩
  · intro a
    exact (a.eqRfc3986_iff hB a).mpr rfl
  · intro a b h
    exact (b.eqRfc3986_iff hB a).mpr ((a.eqRfc3986_iff hB b).mp h).symm
  · intro a b c hab hbc
    exact (a.eqRfc3986_iff hB c).mpr
      (((a.eqRfc3986_iff hB b).mp hab).trans ((b.eqRfc3986_iff hB c).mp hbc))
  · intro a b
    refine ⟨a.cmpRfc3986_eq hB b, ?_⟩
    rw [a.eqRfc3986_iff hB, compareOn, Std.compare_eq_iff_eq]
  · intro a
    obtain ⟨n, hraw, hnormal⟩ := a.exists_normal hB
    refine ⟨n, ?_, ?_⟩
    · intro m
      rw [a.eqRfc3986_iff hB, m.bytesRfc3986_eq hB, Except.ok.injEq]
      constructor
      · rintro ⟨ham, hm⟩
        exact Subtype.ext (PctStr.mk.injEq .. ▸ (hm.symm.trans ham.symm).trans hraw.symm)
      · rintro rfl
        exact ⟨hnormal.symm, hnormal.trans hraw.symm⟩
    · intro b hb
      rw [hraw, (a.eqRfc3986_iff hB b).mp hb]
      exact b.length_normalForm_le hB
  · intro a b
    obtain ⟨ts, hts, ha, -⟩ := a.exists_normalForm hB
    obtain ⟨us, hus, hb, -⟩ := b.exists_normalForm hB
    rw [a.eqRfc3986_iff hB, ha, hb, spell_injective.eq_iff, normalize_eq_iff, hts, hus,
      PctStr.eq_spell, Except.ok.injEq, decide_eq_true_iff, forall₂_equiv_iff]
    refine and_congr_right fun _ => ⟨fun h => ⟨ts, us, rfl, rfl, h⟩, ?_⟩
    rintro ⟨ts', us', hts', hus', h⟩
    rwa [spell_injective hts', spell_injective hus'] at h

theorem rfc3986_classes_letter :
    ∃ n : PctStr.Value (referenceBuild true false), ∀ m : PctStr.Value (referenceBuild true false),
      PctStr.eqRfc3986 ⟨[0x25, 0x36, 0x31]⟩ m.1 = .ok true ∧ m.1.bytesRfc3986 = .ok m.1.raw ↔
        m = n := by
  have hB := referenceBuild_lawful true false
  obtain ⟨n, hn, -⟩ := (rfc3986_classes hB).2.2.1
    ⟨_, hB.valid_of_ascii [tripletOf 0x61] (by simp)⟩
  exact ⟨n, hn⟩

end Pct
