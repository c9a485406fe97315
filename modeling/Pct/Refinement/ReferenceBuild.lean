import Pct.Source.Util

/-!
# A build with reference packages

`referenceBuild` links the crate with plain definitions of `memchr` and `utf8_decode`:
the positions of a byte in a list, and the UTF-8 decoder of the library, which stops at
the first error. It is lawful (`referenceBuild_lawful`) under any choice of features, so
what is proved of all lawful builds is proved of something, and it computes.
-/

namespace Pct

/-- The characters of a byte string up to the first byte that starts none. -/
def decodeItems : List UInt8 → List (Except Unit Char)
  | [] => []
  | b :: bs =>
    match _h : Utf8.decodeFirst (b :: bs) with
    | none => [.error ()]
    | some (c, rest) => .ok c :: decodeItems rest
termination_by bs => bs.length
decreasing_by
  obtain ⟨x, t, hc, -⟩ := Utf8.encodeChar_shape c
  have := congrArg List.length (Utf8.eq_append_of_decodeFirst _h)
  simp only [hc, List.length_append, List.length_cons] at this ⊢
  omega

theorem decodeItems_encode (cs : List Char) : decodeItems (Utf8.encode cs) = cs.map .ok := by
  induction cs with
  | nil => rw [Utf8.encode_nil, decodeItems, List.map_nil]
  | cons c cs ih =>
    obtain ⟨x, t, hc, -⟩ := Utf8.encodeChar_shape c
    have hfirst := Utf8.decodeFirst_encodeChar c (Utf8.encode cs)
    rw [Utf8.encode_cons, hc, List.cons_append] at *
    rw [decodeItems]
    split <;> simp_all

theorem decodeItems_ok (bs : List UInt8) :
    (∀ r ∈ decodeItems bs, r.isOk) ↔ Utf8.WellFormed bs := by
  constructor
  · intro h
    fun_induction decodeItems bs with
    | case1 => exact Utf8.wellFormed_nil
    | case2 => simp [Except.isOk, Except.toBool] at h
    | case3 b bs c rest hfirst ih =>
      rw [Utf8.eq_append_of_decodeFirst hfirst]
      exact (Utf8.wellFormed_encodeChar c).append (ih fun r hr => h r (List.mem_cons_of_mem _ hr))
  · rintro ⟨cs, rfl⟩
    simp [decodeItems_encode, Except.isOk, Except.toBool]

/-- The bytes in front of the first error, and that error. -/
def splitItems {E : Type} : List (Except E UInt8) → List UInt8 × Option E
  | [] => ([], none)
  | .ok b :: items => (b :: (splitItems items).1, (splitItems items).2)
  | .error e :: _ => ([], some e)

theorem splitItems_eq {E : Type} {items : List (Except E UInt8)} {bs : List UInt8} :
    splitItems items = (bs, none) ↔ items = bs.map .ok := by
  induction items generalizing bs with
  | nil => cases bs <;> simp [splitItems]
  | cons r items ih =>
    cases r with
    | error e => cases bs <;> simp [splitItems]
    | ok b =>
      cases bs with
      | nil => simp [splitItems]
      | cons b' bs =>
        have ih := @ih bs
        rw [Prod.ext_iff] at ih
        simp [splitItems, ← ih, and_assoc]

def tryDecodeItems (items : List (Except (ByteError Unit) UInt8)) :
    List (Except (ByteError Unit) Char) :=
  (decodeItems (splitItems items).1).map (Except.mapError .utf8) ++
    ((splitItems items).2.map .error).toList

theorem tryDecodeItems_ok (items : List (Except (ByteError Unit) UInt8)) :
    (∀ r ∈ tryDecodeItems items, r.isOk) ↔ ∃ bs, items = bs.map .ok ∧ Utf8.WellFormed bs := by
  have hitems (r : Except Unit Char) : (r.mapError ByteError.utf8).isOk = r.isOk := by
    cases r <;> rfl
  simp only [tryDecodeItems, List.forall_mem_append, List.forall_mem_map, hitems, decodeItems_ok,
    ← splitItems_eq]
  rcases splitItems items with ⟨bs, _ | e⟩
  · simp
  · simp [Except.isOk, Except.toBool]

def referenceBuild (memchrFeature simdFeature : Bool) : Build Unit where
  memchrFeature := memchrFeature
  simdFeature := simdFeature
  memchr needle haystack := haystack.findIdx? (· == needle)
  memchrIter needle haystack := haystack.findIdxs (· == needle)
  tryDecoder := tryDecodeItems
  decoder := decodeItems

theorem referenceBuild_lawful (memchrFeature simdFeature : Bool) :
    (referenceBuild memchrFeature simdFeature).Lawful where
  memchr_first _ _ := rfl
  memchrIter_increasing _ _ := List.pairwise_findIdxs
  memchrIter_all needle haystack i := by
    simp [referenceBuild, List.getElem?_eq_some_iff]
  tryDecoder_accepts := tryDecodeItems_ok
  decoder_yields := decodeItems_encode

end Pct
