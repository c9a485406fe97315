import Pct.Library.Calls
import Pct.Refinement.Unchecked

/-!
# Iterations that are stopped

An iterator can be left after any number of calls. `Bytes` then stands behind a token;
`Rfc3986Bytes` stands behind one too, and its pending bytes are what the normal form of the
tokens passed so far has in store. So the bytes that came out and those that are pending
are the normal form of a prefix of the text, whatever the text is.
-/

namespace Pct

open Rust

/-- Raw bytes are empty, or start with a token or with a defect. -/
theorem front_cases (bs : List UInt8) :
    bs = [] ∨ (∃ (t : Token) (rest : List UInt8), bs = t.spelling ++ rest) ∨
      ∃ rest, bs = percent :: rest ∧ Defect rest := by
  cases bs with
  | nil => exact .inl rfl
  | cons b bs =>
    by_cases hb : b = percent
    · subst hb
      by_cases hbs : Defect bs
      · exact .inr (.inr ⟨bs, rfl, hbs⟩)
      · simp only [Defect, not_forall, not_not] at hbs
        obtain ⟨hi, lo, rest, rfl, hhi, hlo⟩ := hbs
        exact .inr (.inl ⟨.triplet ⟨hi, hhi⟩ ⟨lo, hlo⟩, rest, rfl⟩)
    · exact .inr (.inl ⟨.literal ⟨b, hb⟩, bs, rfl⟩)

/-- What starts with a token does not start with a defect. -/
theorem Token.not_defect (t : Token) (rest : List UInt8) :
    ¬ ∃ rest', t.spelling ++ rest = percent :: rest' ∧ Defect rest' := by
  rintro ⟨rest', h, hdefect⟩
  cases t with
  | literal b => exact b.ne_percent (List.cons.inj h).1
  | triplet hi lo =>
    obtain rfl := (List.cons.inj h).2
    exact hdefect hi.byte lo.byte rest rfl ⟨hi.isHex, lo.isHex⟩

/-! ## Decoded bytes -/

/-- The iterator of `raw` stands at `s` after it yielded `ys`. -/
def Bytes.Reads (raw ys s : List UInt8) : Prop := ∃ ts, raw = spell ts ++ s ∧ octets ts = ys

/-- What one call of `next` does. -/
inductive Bytes.Next (s : List UInt8) : Exec (Option (UInt8 × List UInt8)) → Prop where
  | done (h : s = []) : Next s (.ok none)
  | token (t : Token) {rest : List UInt8} (h : s = t.spelling ++ rest) :
      Next s (.ok (some (t.octet, rest)))
  | defect {rest : List UInt8} {e : Fault} (h : s = percent :: rest) (hrest : Defect rest) :
      Next s (.error e)

theorem Bytes.next_spec (s : List UInt8) : Bytes.Next s (Bytes.iter.next s) := by
  obtain rfl | ⟨t, rest, rfl⟩ | ⟨rest, rfl, hrest⟩ := front_cases s
  · exact .done rfl
  · rw [Bytes.next_spell]
    exact .token t rfl
  · obtain ⟨e, he⟩ := Bytes.next_defect hrest
    rw [he]
    exact .defect rfl hrest

theorem Bytes.Reads.next {raw ys s s' : List UInt8} {b : UInt8} (h : Reads raw ys s)
    (hnext : Bytes.iter.next s = .ok (some (b, s'))) : Reads raw (ys ++ [b]) s' := by
  obtain ⟨ts, rfl, rfl⟩ := h
  have hspec := Bytes.next_spec s
  rw [hnext] at hspec
  cases hspec with
  | token t h => exact ⟨ts ++ [t], by simp [h], by simp⟩

/-! ## The normal form -/

namespace Rfc3986Bytes

/-- The pending bytes that are still to come. -/
def pendingBytes (s : Rfc3986Bytes) : List UInt8 :=
  (s.pending.toList.take s.pendingLen).drop s.pendingPos

/-- Both counters stay inside of the array. -/
structure InBounds (s : Rfc3986Bytes) : Prop where
  pos_le : s.pendingPos ≤ s.pendingLen
  len_le : s.pendingLen ≤ 2

theorem pendingBytes_of_drained {s : Rfc3986Bytes} (h : s.Drained) : s.pendingBytes = [] :=
  List.drop_eq_nil_of_le ((List.length_take_le _ _).trans h)

/-- What one call of `next` does: it takes a pending byte, or it passes a token and has the
rest of its normal form pending. -/
inductive Next (s : Rfc3986Bytes) : Exec (Option (UInt8 × Rfc3986Bytes)) → Prop where
  | pending {b : UInt8} {s' : Rfc3986Bytes} (h : s.pendingBytes = b :: s'.pendingBytes)
      (hiter : s'.iter = s.iter) (hs' : s'.InBounds) : Next s (.ok (some (b, s')))
  | done (h : s.pendingBytes = []) (hiter : s.iter = []) : Next s (.ok none)
  | token (t : Token) {b : UInt8} {s' : Rfc3986Bytes} (h : s.pendingBytes = [])
      (hiter : s.iter = t.spelling ++ s'.iter)
      (ht : t.normalize.spelling = b :: s'.pendingBytes) (hs' : s'.InBounds) :
      Next s (.ok (some (b, s')))
  | defect {rest : List UInt8} {e : Fault} (h : s.pendingBytes = [])
      (hiter : s.iter = percent :: rest) (hrest : Defect rest) : Next s (.error e)

theorem next_pending {s : Rfc3986Bytes} (hs : s.InBounds) (h : s.pendingPos < s.pendingLen) :
    Next s (iterator.next s) := by
  have hpos : s.pendingPos < 2 := Nat.lt_of_lt_of_le h hs.len_le
  have hnext : iterator.next s =
      .ok (some (s.pending.get ⟨s.pendingPos, hpos⟩,
        { s with pendingPos := s.pendingPos + 1 })) := by
    simp [iterator, next, if_pos h, lookup_eq_ok _ hpos]
  rw [hnext]
  refine .pending ?_ rfl ⟨h, hs.len_le⟩
  have hlen : s.pendingPos < (s.pending.toList.take s.pendingLen).length := by simp [h, hpos]
  rw [pendingBytes, List.drop_eq_getElem_cons hlen]
  simp [pendingBytes, Vector.get]

theorem next_spec {s : Rfc3986Bytes} (hs : s.InBounds) : Next s (iterator.next s) := by
  rcases Nat.lt_or_ge s.pendingPos s.pendingLen with hlt | hdrained
  · exact next_pending hs hlt
  have hpending := pendingBytes_of_drained hdrained
  obtain hiter | ⟨t, rest, hiter⟩ | ⟨rest, hiter, hrest⟩ := front_cases s.iter
  · have hnext : iterator.next s = .ok none := by
      simp [iterator, next, Nat.not_lt.mpr hdrained, hiter]
    rw [hnext]
    exact .done hpending hiter
  · cases t with
    | literal b =>
      rw [next_literal hdrained hiter]
      exact .token (.literal b) hpending hiter (congrArg (b.byte :: ·) hpending.symm)
        ⟨hs.pos_le, hs.len_le⟩
    | triplet hi lo =>
      rw [next_triplet hdrained hiter]
      by_cases hu : isUnreserved (Token.triplet hi lo).octet = true
      · rw [if_pos hu]
        refine .token (.triplet hi lo) hpending hiter ?_ ⟨hs.pos_le, hs.len_le⟩
        rw [Token.normalize, dif_pos hu]
        exact congrArg ((Token.triplet hi lo).octet :: ·) hpending.symm
      · rw [if_neg hu]
        refine .token (.triplet hi lo) hpending hiter ?_ ⟨Nat.zero_le 2, Nat.le_refl 2⟩
        rw [Token.normalize, dif_neg hu]
        rfl
  · obtain ⟨e, he⟩ := next_defect hdrained hiter hrest
    rw [he]
    exact .defect hpending hiter hrest

/-- The iterator of `raw` stands at `s` after it yielded `ys`. -/
structure Reads (raw ys : List UInt8) (s : Rfc3986Bytes) : Prop where
  inBounds : s.InBounds
  consumed : ∃ ts, raw = spell ts ++ s.iter ∧ spell (normalize ts) = ys ++ s.pendingBytes

theorem Reads.new (raw : List UInt8) : Reads raw [] (.new raw) where
  inBounds := ⟨Nat.le_refl 0, Nat.zero_le 2⟩
  consumed := ⟨[], rfl, rfl⟩

theorem Reads.next {raw ys : List UInt8} {s s' : Rfc3986Bytes} {b : UInt8} (h : Reads raw ys s)
    (hnext : iterator.next s = .ok (some (b, s'))) : Reads raw (ys ++ [b]) s' := by
  obtain ⟨hs, ts, hraw, hys⟩ := h
  have hspec := next_spec hs
  rw [hnext] at hspec
  cases hspec with
  | pending hpending hiter hs' => exact ⟨hs', ts, by rw [hraw, hiter], by simp [hys, hpending]⟩
  | token t hpending hiter ht hs' =>
    refine ⟨hs', ts ++ [t], by simp [hraw, hiter], ?_⟩
    rw [normalize_append, spell_append, hys, hpending, normalize_cons, spell_cons, ht]
    simp [normalize]

end Rfc3986Bytes

/-! ## Any number of calls -/

/-- Wherever calls of `next` lead on any bytes: `bytes()` yielded the octets of the tokens
it passed, `bytes_rfc3986()` yielded their normal form up to the pending bytes. Both end at
the end of the text only, with nothing pending, and fault at a defect only, in builds that
check debug assertions. -/
theorem iterators_incremental (raw : List UInt8) :
    (∀ ys s, Bytes.iter.Yields raw ys s →
      (∃ ts, raw = spell ts ++ s ∧ octets ts = ys) ∧
      (Bytes.iter.next s = .ok none ↔ s = []) ∧
      ((∃ e, Bytes.iter.next s = .error e) ↔ ∃ rest, s = percent :: rest ∧ Defect rest)) ∧
    ∀ ys s, Rfc3986Bytes.iterator.Yields (.new raw) ys s →
      (s.pendingPos ≤ s.pendingLen ∧ s.pendingLen ≤ 2) ∧
      (∃ ts, raw = spell ts ++ s.iter ∧ spell (normalize ts) = ys ++ s.pendingBytes) ∧
      (Rfc3986Bytes.iterator.next s = .ok none ↔ s.iter = [] ∧ s.pendingBytes = []) ∧
      ((∃ e, Rfc3986Bytes.iterator.next s = .error e) ↔
        s.pendingBytes = [] ∧ ∃ rest, s.iter = percent :: rest ∧ Defect rest) := by
  constructor
  · intro ys s h
    have hreads : Bytes.Reads raw ([] ++ ys) s :=
      h.invariant (Bytes.Reads raw) (fun _ _ _ _ hs hnext => hs.next hnext) ⟨[], rfl, rfl⟩
    refine ⟨hreads, ?_⟩
    have hspec := Bytes.next_spec s
    generalize Bytes.iter.next s = o at hspec
    cases hspec with
    | done h => simp [h]
    | token t h =>
      subst h
      exact ⟨by simp [t.spelling_ne_nil], by simpa using t.not_defect _⟩
    | defect h hrest => simp [h, hrest]
  · intro ys s h
    obtain ⟨hs, hconsumed⟩ : Rfc3986Bytes.Reads raw ([] ++ ys) s :=
      h.invariant (Rfc3986Bytes.Reads raw) (fun _ _ _ _ hs hnext => hs.next hnext) (.new raw)
    refine ⟨⟨hs.pos_le, hs.len_le⟩, hconsumed, ?_⟩
    have hspec := Rfc3986Bytes.next_spec hs
    generalize Rfc3986Bytes.iterator.next s = o at hspec
    cases hspec with
    | pending h => simp [h]
    | done h hiter => simp [h, hiter]
    | token t h hiter =>
      rw [h, hiter]
      exact ⟨by simp [t.spelling_ne_nil], by simpa using t.not_defect _⟩
    | defect h hiter hrest => simp [h, hiter, hrest]

/-- The second call on `a%` faults. -/
theorem iterators_incremental_cut :
    ∃ e, Rfc3986Bytes.iterator.next (.new [percent]) = .error e := by
  have hyields : Rfc3986Bytes.iterator.Yields (.new [0x61, percent]) [0x61] (.new [percent]) :=
    .cons (Rfc3986Bytes.next_literal (s := .new _) (b := ⟨0x61, by decide⟩) (Nat.le_refl 0) rfl)
      (.nil _)
  have hfault := ((iterators_incremental [0x61, percent]).2 _ _ hyields).2.2.2
  exact hfault.mpr ⟨rfl, [], rfl, by simp [Defect]⟩

end Pct
