import Pct.Refinement.Unchecked

/-!
# Comparing values that were never checked

A comparison stops at the first difference, so a defect behind it does no harm. It is
obstructed exactly when the tokens in front of a defect are not told apart from what the
other value has there. Equality also has a shortcut for equal raw bytes, which `cmp` has not.
Debug assertions are checked; without them a malformed triplet is read as some octet.
-/

namespace Pct

open Rust

/-- One of two raw texts has its defect before they differ, as `f` reads their tokens. -/
def Obstructed (f : List Token → List UInt8) (a b : List UInt8) : Prop :=
  (¬ Spelled a ∧ f (frontTokens a) <+: f (frontTokens b)) ∨
    (¬ Spelled b ∧ f (frontTokens b) <+: f (frontTokens a))

/-- The decoded bytes in front of the first defect, and whether there is one. -/
theorem Bytes.stops (bs : List UInt8) :
    ∃ faults, Bytes.iter.Stops bs (octets (frontTokens bs)) faults ∧
      (faults = true ↔ ¬ Spelled bs) := by
  obtain heq | ⟨rest, heq, hdefect⟩ := frontTokens_cases bs
  · have hcollect := Bytes.collect_spell (frontTokens bs)
    rw [heq] at hcollect
    exact ⟨false, .of_collect hcollect, by simpa using ⟨_, heq⟩⟩
  · have hstops := Bytes.stops_defect (frontTokens bs) hdefect
    have hspelled := not_spelled (frontTokens bs) hdefect
    rw [← heq] at hstops hspelled
    exact ⟨true, hstops, by simpa using hspelled⟩

/-- The same for the normal form. -/
theorem Rfc3986Bytes.stops (bs : List UInt8) :
    ∃ faults, iterator.Stops (.new bs) (spell (normalize (frontTokens bs))) faults ∧
      (faults = true ↔ ¬ Spelled bs) := by
  obtain heq | ⟨rest, heq, hdefect⟩ := frontTokens_cases bs
  · have hcollect := collect_spell (frontTokens bs) (s := .new bs) (Nat.le_refl 0) heq.symm
    exact ⟨false, .of_collect hcollect, by simpa using ⟨_, heq⟩⟩
  · have hstops := stops_defect (frontTokens bs) (s := .new bs) (Nat.le_refl 0) heq hdefect
    have hspelled := not_spelled (frontTokens bs) hdefect
    rw [← heq] at hspelled
    exact ⟨true, hstops, by simpa using hspelled⟩

section Comparisons

variable {σ : Type} {I : Iter σ UInt8} {s t : σ} {f : List Token → List UInt8}
  {a b : List UInt8}
  (ha : ∃ faults, I.Stops s (f (frontTokens a)) faults ∧ (faults = true ↔ ¬ Spelled a))
  (hb : ∃ faults, I.Stops t (f (frontTokens b)) faults ∧ (faults = true ↔ ¬ Spelled b))
include ha hb

theorem eq_returns_iff :
    (Exec.Returns (I.eq I s t) ↔ ¬ Obstructed f a b) ∧ ∀ r, I.eq I s t = .ok r →
      r = decide (f (frontTokens a) = f (frontTokens b)) := by
  obtain ⟨faults, hs, hfaults⟩ := ha
  obtain ⟨faults', ht, hfaults'⟩ := hb
  obtain ⟨hblocked, hfree⟩ := hs.eq ht
  rw [Iter.Blocked, hfaults, hfaults'] at hblocked hfree
  exact Exec.returns_iff hblocked hfree

theorem cmp_returns_iff :
    (Exec.Returns (I.cmp I s t) ↔ ¬ Obstructed f a b) ∧ ∀ o, I.cmp I s t = .ok o →
      o = compare (f (frontTokens a)) (f (frontTokens b)) := by
  obtain ⟨faults, hs, hfaults⟩ := ha
  obtain ⟨faults', ht, hfaults'⟩ := hb
  obtain ⟨hblocked, hfree⟩ := hs.cmp ht
  rw [Iter.Blocked, hfaults, hfaults'] at hblocked hfree
  exact Exec.returns_iff hblocked hfree

/-- With the shortcut for equal raw bytes. -/
theorem eq_or_returns_iff :
    (Exec.Returns (if a = b then .ok true else I.eq I s t) ↔ a = b ∨ ¬ Obstructed f a b) ∧
      ∀ r, (if a = b then .ok true else I.eq I s t) = .ok r →
        r = decide (f (frontTokens a) = f (frontTokens b)) := by
  by_cases hab : a = b
  · subst hab
    simp only [if_true, true_or, iff_true, decide_true]
    exact ⟨⟨true, rfl⟩, fun r h => (Except.ok.inj h).symm⟩
  · simpa only [hab, if_false, false_or] using eq_returns_iff ha hb

end Comparisons

/-- Comparisons of any two values, `new_unchecked` ones included: equality faults exactly
when the raw texts are not the same and obstructed, order when they are obstructed.
Otherwise the tokens in front of the defects decide. -/
theorem unchecked_comparisons (p q : PctStr) :
    ((Exec.Returns (p.eq q) ↔ p.raw = q.raw ∨ ¬ Obstructed octets p.raw q.raw) ∧
        ∀ r, p.eq q = .ok r →
          r = decide (octets (frontTokens p.raw) = octets (frontTokens q.raw))) ∧
      ((Exec.Returns (p.cmp q) ↔ ¬ Obstructed octets p.raw q.raw) ∧ ∀ o, p.cmp q = .ok o →
        o = compare (octets (frontTokens p.raw)) (octets (frontTokens q.raw))) ∧
      ((Exec.Returns (p.eqRfc3986 q) ↔
          p.raw = q.raw ∨ ¬ Obstructed (spell ∘ normalize) p.raw q.raw) ∧
        ∀ r, p.eqRfc3986 q = .ok r →
          r = decide (normalize (frontTokens p.raw) = normalize (frontTokens q.raw))) ∧
      ((Exec.Returns (p.cmpRfc3986 q) ↔ ¬ Obstructed (spell ∘ normalize) p.raw q.raw) ∧
        ∀ o, p.cmpRfc3986 q = .ok o → o = compare (spell (normalize (frontTokens p.raw)))
          (spell (normalize (frontTokens q.raw)))) := by
  have hnormal := eq_or_returns_iff (f := spell ∘ normalize) (Rfc3986Bytes.stops p.raw)
    (Rfc3986Bytes.stops q.raw)
  simp only [Function.comp_apply, spell_injective.eq_iff] at hnormal
  exact ⟨eq_or_returns_iff (Bytes.stops p.raw) (Bytes.stops q.raw),
    cmp_returns_iff (Bytes.stops p.raw) (Bytes.stops q.raw), hnormal,
    cmp_returns_iff (f := spell ∘ normalize) (Rfc3986Bytes.stops p.raw)
      (Rfc3986Bytes.stops q.raw)⟩

end Pct
