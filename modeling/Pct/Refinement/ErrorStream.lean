import Pct.Refinement.Validation
import Pct.Text.Segment

/-!
# What the untrusted iterator makes of arbitrary bytes

`TryEncodedBytes` yields one item for each segment of its input, errors included, and goes
on behind a malformed triplet. The iterator it wraps may be any: one that is fused and
returns the same bytes gives the same items. Its own fused law is that of the wrapped
iterator, which the crate promises without asking for it.
-/

namespace Pct

open Rust

variable {ε σ : Type} {B : Build ε} {S : Producer σ UInt8}

namespace TryEncodedBytes

/-- The error names the first byte that is no hex digit. -/
theorem invalidByte_eq (a b : UInt8) :
    (if hexVal a = 0xFF then a else b) = if isHexDigit a then b else a := by
  simp only [hexVal_eq_ff]
  cases isHexDigit a <;> rfl

/-- The iterator ends exactly when the wrapped one does, in the same state. -/
theorem next_new_eq_none {s t : σ} :
    (new (ε := ε) S).next s = (none, t) ↔ S.next s = (none, t) := by
  rcases hs : S.next s with ⟨_ | b, u⟩ <;> simp [new, nextOf, hs, Prod.ext_iff]

theorem fused_new : (new (ε := ε) S).Fused ↔ S.Fused := by
  simp only [Producer.Fused, next_new_eq_none]

theorem drains_new_nil {s : σ} (h : S.Drains s []) : (new (ε := ε) S).Drains s [] := by
  obtain ⟨t, ht⟩ := h.next_of_nil
  exact .nil (next_new_eq_none.mpr ht)

/-- Around a fused iterator, every segment of its bytes gives an item. -/
theorem drains_new (hS : S.Fused) {s : σ} {bs : List UInt8} (h : S.Drains s bs) :
    (new (ε := ε) S).Drains s ((segments bs).map Segment.item) := by
  fun_induction segments bs generalizing s with
  | case1 => exact drains_new_nil h
  | case2 a c rest hac ih =>
    obtain ⟨s₁, h₁, h⟩ := h.next_of_cons
    obtain ⟨s₂, h₂, h⟩ := h.next_of_cons
    obtain ⟨s₃, h₃, h⟩ := h.next_of_cons
    have hff : ¬ hexVal a ||| hexVal c = 0xFF := by simp [hexVal_or_eq_ff, hac]
    have hoctet := hexVal_octet ⟨a, hac.1⟩ ⟨c, hac.2⟩
    refine .cons (t := s₃) ?_ (ih h)
    simp [new, nextOf, tryNextOf, h₁, h₂, h₃, hff, Segment.item, hoctet]
  | case3 a c rest hac ih =>
    obtain ⟨s₁, h₁, h⟩ := h.next_of_cons
    obtain ⟨s₂, h₂, h⟩ := h.next_of_cons
    obtain ⟨s₃, h₃, h⟩ := h.next_of_cons
    have hff : hexVal a ||| hexVal c = 0xFF := hexVal_or_eq_ff.mpr hac
    refine .cons (t := s₃) ?_ (ih h)
    simp [new, nextOf, tryNextOf, h₁, h₂, h₃, hff, Segment.item, invalidByte_eq]
  | case4 a =>
    obtain ⟨s₁, h₁, h⟩ := h.next_of_cons
    obtain ⟨s₂, h₂, h⟩ := h.next_of_cons
    obtain ⟨s₃, h₃⟩ := h.next_of_nil
    refine .cons (t := s₃) ?_ (drains_new_nil (hS.drains_nil h₃))
    simp [new, nextOf, tryNextOf, h₁, h₂, h₃, Segment.item]
  | case5 =>
    obtain ⟨s₁, h₁, h⟩ := h.next_of_cons
    obtain ⟨s₂, h₂⟩ := h.next_of_nil
    refine .cons (t := s₂) ?_ (drains_new_nil (hS.drains_nil h₂))
    simp [new, nextOf, tryNextOf, h₁, h₂, Segment.item]
  | case6 b rest hb ih =>
    obtain ⟨s₁, h₁, h⟩ := h.next_of_cons
    exact .cons (t := s₁) (by simp [new, nextOf, tryNextOf, h₁, hb, Segment.item]) (ih h)

/-- Around a slice it is the iterator over the bytes of the slice. -/
theorem next_ofSlice (bs : List UInt8) : next (ε := ε) bs =
    .ok (match (new .ofSlice).next bs with
      | (some r, rest) => some (r, rest)
      | (none, _) => none) := by
  match bs with
  | [] => rfl
  | [b] => by_cases hb : b = percent <;>
      simp [next, tryNext, new, nextOf, tryNextOf, Producer.ofSlice, hb]
  | [b, a] => by_cases hb : b = percent <;>
      simp [next, tryNext, new, nextOf, tryNextOf, Producer.ofSlice, hb]
  | b :: a :: c :: rest =>
    by_cases hb : b = percent
    · simp only [next, tryNext, new, nextOf, tryNextOf, Producer.ofSlice, hb, if_true]
      split <;> rfl
    · simp [next, tryNext, new, nextOf, tryNextOf, Producer.ofSlice, hb]

theorem collect_eq_of_drains {bs : List UInt8} {items : List (Except (ByteError ε) UInt8)}
    (h : (new .ofSlice).Drains bs items) : iter.collect bs = .ok items := by
  induction h with
  | nil hnext => exact Iter.collect_nil _ ((next_ofSlice _).trans (by rw [hnext]))
  | @cons s t r items hnext _ ih =>
    have hstep : (iter (ε := ε)).next s = .ok (some (r, t)) :=
      (next_ofSlice s).trans (by rw [hnext])
    rw [Iter.collect_cons _ hstep, ih, Exec.map_ok]

theorem collect_eq_segments (bs : List UInt8) :
    iter (ε := ε).collect bs = .ok ((segments bs).map Segment.item) :=
  collect_eq_of_drains (drains_new Producer.fused_ofSlice (Producer.drains_ofSlice bs))

end TryEncodedBytes

/-! ## Results -/

/-- Any bytes fall into segments in one way, and the untrusted iterator yields one item for
each of them: the octet of a token, the first byte of a malformed triplet that is no hex
digit, or the report of a cut, which can only be the last item. The segments of a spelled
text are its tokens. -/
theorem tryEncodedBytes_items (bs : List UInt8) :
    ∃ ss, Segment.Sequence ss ∧ assemble ss = bs ∧
      (∀ ss', Segment.Sequence ss' → assemble ss' = bs → ss' = ss) ∧
      (∀ ts, ss = ts.map .token ↔ spell ts = bs) ∧
      (TryEncodedBytes.iter (ε := ε)).collect bs = .ok (ss.map Segment.item) := by
  refine ⟨segments bs, sequence_segments bs, assemble_segments bs, ?_,
    fun _ => segments_eq_map_token, TryEncodedBytes.collect_eq_segments bs⟩
  rintro ss' hss' rfl
  exact (segments_assemble hss').symm

/-- The iterator around any fused one yields what it yields around the slice of its bytes
and nothing else, and `validate` decides the same language. Fused itself it is when the
wrapped one is. -/
theorem tryEncodedBytes_of_any (hB : B.Lawful) (S : Producer σ UInt8) :
    ((TryEncodedBytes.new (ε := ε) S).Fused ↔ S.Fused) ∧
      (S.Fused → ∀ s bs, S.Drains s bs → ∃ items : List (Except (ByteError ε) UInt8),
        (∀ items', (TryEncodedBytes.new S).Drains s items' ↔ items' = items) ∧
        TryEncodedBytes.iter.collect bs = .ok items ∧
        (B.tryDecoder items).all (·.isOk) = decide (Accepted bs)) := by
  refine ⟨TryEncodedBytes.fused_new, ?_⟩
  intro hS s bs h
  have hitems := TryEncodedBytes.collect_eq_segments (ε := ε) bs
  have hdrains := TryEncodedBytes.drains_new (ε := ε) hS h
  refine ⟨_, fun items' => ⟨fun h' => h'.unique hdrains, fun heq => heq ▸ hdrains⟩, hitems, ?_⟩
  have hvalidate := hB.validate_eq bs
  rw [PctStr.validate, hitems, Exec.ok_bind] at hvalidate
  exact Except.ok.inj hvalidate

theorem tryEncodedBytes_of_any_slice :
    ∃ items : List (Except (ByteError Unit) UInt8),
      (TryEncodedBytes.new .ofSlice).Drains [0x25, 0x34, 0x31] items ∧
      TryEncodedBytes.iter.collect [0x25, 0x34, 0x31] = .ok items := by
  obtain ⟨items, hdrains, hitems, -⟩ :=
    (tryEncodedBytes_of_any (referenceBuild_lawful true false) .ofSlice).2
      Producer.fused_ofSlice _ _ (Producer.drains_ofSlice [0x25, 0x34, 0x31])
  exact ⟨items, (hdrains items).mpr rfl, hitems⟩

/-- Items without an error are bytes. -/
theorem exists_map_ok {items : List (Except (ByteError ε) UInt8)} (h : ∀ e, .error e ∉ items) :
    ∃ os : List UInt8, items = os.map .ok := by
  induction items with
  | nil => exact ⟨[], rfl⟩
  | cons r items ih =>
    obtain ⟨os, rfl⟩ := ih fun e he => h e (List.mem_cons_of_mem _ he)
    cases r with
    | error e => exact absurd List.mem_cons_self (h e)
    | ok b => exact ⟨b :: os, rfl⟩

/-- Bytes that no tokens spell are reported. -/
theorem exists_error {bs : List UInt8} {items : List (Except (ByteError ε) UInt8)}
    (hitems : TryEncodedBytes.iter.collect bs = .ok items) (hparse : parse bs = none) :
    ∃ e, .error e ∈ items := by
  by_contra hnone
  rw [not_exists] at hnone
  obtain ⟨os, hos⟩ := exists_map_ok hnone
  have hdecode := (TryEncodedBytes.collect_eq_ok hitems os).mp hos
  simp [referenceDecode_eq, hparse] at hdecode

/-- `validate_fast` rejects exactly where the untrusted iterator reports an error, accepts
exactly where it yields ASCII bytes only, and asks for the full check otherwise. -/
theorem validateFast_verdict (hB : B.Lawful) (bs : List UInt8) :
    ∃ v, ∃ items : List (Except (ByteError ε) UInt8), validateFast B bs = .ok v ∧
      TryEncodedBytes.iter.collect bs = .ok items ∧
      (v = .invalid ↔ ∃ e, .error e ∈ items) ∧
      (v = .valid ↔ ∀ r ∈ items, ∃ b, r = .ok b ∧ b < 0x80) ∧
      (v = .needsFullCheck ↔ ∃ os : List UInt8, items = os.map .ok ∧ ∃ b ∈ os, b ≥ 0x80) := by
  obtain ⟨items, hitems⟩ := TryEncodedBytes.collect_total (ε := ε) bs
  refine ⟨_, items, hB.validateFast_eq bs, hitems, ?_⟩
  cases hparse : parse bs with
  | none =>
    obtain ⟨e, he⟩ := exists_error hitems hparse
    refine ⟨iff_of_true rfl ⟨e, he⟩, iff_of_false (by simp [fastVerdict]) ?_,
      iff_of_false (by simp [fastVerdict]) ?_⟩
    · intro h
      obtain ⟨b, hb, -⟩ := h _ he
      cases hb
    · rintro ⟨os, rfl, -⟩
      simp at he
  | some ts =>
    have hoctets : items = (octets ts).map .ok := by
      rw [TryEncodedBytes.collect_eq_ok hitems, referenceDecode_eq, hparse, Option.map_some]
    have hascii := @orNonAscii_eq_zero 0 (octets ts)
    have hinj : Function.Injective (Except.ok : UInt8 → Except (ByteError ε) UInt8) :=
      fun _ _ => Except.ok.inj
    rw [eq_self_iff_true, true_and] at hascii
    subst hoctets
    simp only [fastVerdict, FastCheck.ofNonAscii, hascii, (List.map_injective_iff.mpr hinj).eq_iff]
    split
    · rename_i hall
      simpa using hall
    · rename_i hnot
      simpa using hnot

theorem validateFast_verdict_cut :
    ∃ v, ∃ items : List (Except (ByteError Unit) UInt8),
      validateFast (referenceBuild false false) [0x61, 0x25, 0x34] = .ok v ∧
      TryEncodedBytes.iter.collect [0x61, 0x25, 0x34] = .ok items ∧
      (v = .invalid ↔ ∃ e, .error e ∈ items) := by
  obtain ⟨v, items, hv, hitems, hinvalid, -⟩ :=
    validateFast_verdict (referenceBuild_lawful false false) [0x61, 0x25, 0x34]
  exact ⟨v, items, hv, hitems, hinvalid⟩

end Pct
